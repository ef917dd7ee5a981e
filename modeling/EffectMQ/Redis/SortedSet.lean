import Mathlib

/-!
# Redis sorted sets

A sorted set keeps one rational score for each member and lists its members by score, ties by the byte
order of the members. The entry list is the whole representation: the structure carries its order and the
uniqueness of its members, so a lookup, a bounded range and a cardinality all read the same list, and two
sets that give every member the same score are equal. Nothing here names a queue or a task.
-/

namespace Redis

/-- The strict byte order of the members of a set. -/
class MemberOrder (α : Type) where
  lt : α → α → Bool
  irrefl : ∀ a, lt a a = false
  trans : ∀ a b c, lt a b = true → lt b c = true → lt a c = true
  total : ∀ a b, lt a b = false → lt b a = false → a = b

instance : MemberOrder String where
  lt a b := decide (a < b)
  irrefl a := decide_eq_false (lt_irrefl a)
  trans _ _ _ hab hbc := decide_eq_true (lt_trans (of_decide_eq_true hab) (of_decide_eq_true hbc))
  total _ _ hab hba := le_antisymm (not_lt.mp (of_decide_eq_false hba)) (not_lt.mp (of_decide_eq_false hab))

section Order

variable {α : Type} [MemberOrder α]

/-- The order in which a sorted set lists its entries. -/
def Before (x y : α × ℚ) : Prop := x.2 < y.2 ∨ x.2 = y.2 ∧ MemberOrder.lt x.1 y.1 = true

instance : DecidableRel (Before (α := α)) := fun x y => by
  unfold Before
  infer_instance

theorem Before.irrefl (x : α × ℚ) : ¬ Before x x := by
  rintro (h | ⟨_, h⟩)
  · exact lt_irrefl _ h
  · rw [MemberOrder.irrefl] at h
    exact Bool.noConfusion h

theorem Before.trans {x y z : α × ℚ} (hxy : Before x y) (hyz : Before y z) : Before x z := by
  rcases hxy with hxy | ⟨hxy, hm⟩ <;> rcases hyz with hyz | ⟨hyz, hn⟩
  · exact Or.inl (hxy.trans hyz)
  · exact Or.inl (hyz ▸ hxy)
  · exact Or.inl (hxy.symm ▸ hyz)
  · exact Or.inr ⟨hxy.trans hyz, MemberOrder.trans _ _ _ hm hn⟩

theorem Before.of_not {x y : α × ℚ} (h : ¬ Before x y) (hne : x.1 ≠ y.1) : Before y x := by
  unfold Before at h ⊢
  push Not at h
  obtain ⟨hle, htie⟩ := h
  rcases lt_or_eq_of_le hle with hlt | heq
  · exact Or.inl hlt
  · refine Or.inr ⟨heq, ?_⟩
    by_contra hlt
    have hxy : MemberOrder.lt x.1 y.1 = false := Bool.eq_false_of_not_eq_true (htie heq.symm)
    exact hne (MemberOrder.total _ _ hxy (Bool.eq_false_of_not_eq_true hlt))

/-- Insert an entry in front of the first entry that comes after it. -/
def insertEntry (e : α × ℚ) : List (α × ℚ) → List (α × ℚ)
  | [] => [e]
  | x :: xs => if Before e x then e :: x :: xs else x :: insertEntry e xs

theorem insertEntry_perm (e : α × ℚ) (l : List (α × ℚ)) : (insertEntry e l).Perm (e :: l) := by
  induction l with
  | nil => exact List.Perm.refl _
  | cons x xs ih =>
    unfold insertEntry
    split
    · exact List.Perm.refl _
    · exact (ih.cons x).trans (List.Perm.swap e x xs)

theorem insertEntry_pairwise {e : α × ℚ} {l : List (α × ℚ)} (hl : l.Pairwise Before)
    (hfresh : ∀ x ∈ l, e.1 ≠ x.1) : (insertEntry e l).Pairwise Before := by
  induction l with
  | nil => exact List.pairwise_singleton _ _
  | cons x xs ih =>
    obtain ⟨hx, hxs⟩ := List.pairwise_cons.mp hl
    unfold insertEntry
    split
    · next hex =>
      refine List.pairwise_cons.mpr ⟨fun y hy => ?_, hl⟩
      rcases List.mem_cons.mp hy with rfl | hy
      · exact hex
      · exact hex.trans (hx y hy)
    · next hex =>
      refine List.pairwise_cons.mpr ⟨fun y hy => ?_, ih hxs fun y hy => hfresh y (List.mem_cons_of_mem _ hy)⟩
      rcases List.mem_cons.mp ((insertEntry_perm e xs).mem_iff.mp hy) with rfl | hy
      · exact Before.of_not hex (hfresh x List.mem_cons_self)
      · exact hx y hy

end Order

/-- A sorted set: entries in order, each member once. -/
structure SortedSet (α : Type) [MemberOrder α] where
  entries : List (α × ℚ)
  ordered : entries.Pairwise Before
  nodup : (entries.map Prod.fst).Nodup

namespace SortedSet

variable {α : Type} [DecidableEq α] [MemberOrder α]

/-- The missing key. -/
def empty : SortedSet α := ⟨[], List.Pairwise.nil, List.nodup_nil⟩

instance : Inhabited (SortedSet α) := ⟨empty⟩

/-- The members in order. -/
def members (z : SortedSet α) : List α := z.entries.map Prod.fst

/-- `ZSCORE`. -/
def score (z : SortedSet α) (m : α) : Option ℚ := (z.entries.find? fun e => e.1 = m).map Prod.snd

/-- `ZCARD`. -/
def card (z : SortedSet α) : ℕ := z.entries.length

theorem mem_entries_iff {z : SortedSet α} {m : α} {s : ℚ} : (m, s) ∈ z.entries ↔ z.score m = some s := by
  unfold score
  constructor
  · intro h
    cases hf : z.entries.find? fun e => e.1 = m with
    | none => simpa using List.find?_eq_none.mp hf _ h
    | some e =>
      have he : e.1 = m := by simpa using List.find?_some hf
      have hmem := List.mem_of_find?_eq_some hf
      rw [List.inj_on_of_nodup_map z.nodup hmem h he, Option.map_some]
  · intro h
    obtain ⟨e, hf, rfl⟩ := Option.map_eq_some_iff.mp h
    have he : e.1 = m := by simpa using List.find?_some hf
    subst he
    exact List.mem_of_find?_eq_some hf

theorem mem_members_iff {z : SortedSet α} {m : α} : m ∈ z.members ↔ (z.score m).isSome := by
  rw [Option.isSome_iff_exists, members, List.mem_map]
  constructor
  · rintro ⟨⟨_, s⟩, h, rfl⟩
    exact ⟨s, mem_entries_iff.mp h⟩
  · rintro ⟨s, h⟩
    exact ⟨(m, s), mem_entries_iff.mpr h, rfl⟩

/-- Two sorted sets with the same scores are the same set: the order leaves no choice of representation. -/
@[ext] theorem ext {y z : SortedSet α} (h : ∀ m, y.score m = z.score m) : y = z := by
  have hperm : y.entries.Perm z.entries := by
    rw [List.perm_ext_iff_of_nodup y.nodup.of_map z.nodup.of_map]
    rintro ⟨m, s⟩
    rw [mem_entries_iff, mem_entries_iff, h]
  have heq : y.entries = z.entries :=
    hperm.eq_of_pairwise (fun a b _ _ hab hba => absurd (hab.trans hba) (Before.irrefl a)) y.ordered z.ordered
  cases y
  cases z
  simpa using heq

@[simp] theorem score_empty (m : α) : (empty : SortedSet α).score m = none := rfl

/-- `ZREM`. -/
def remove (z : SortedSet α) (m : α) : SortedSet α where
  entries := z.entries.filter fun e => e.1 ≠ m
  ordered := z.ordered.filter _
  nodup := z.nodup.sublist ((List.filter_sublist).map _)

theorem score_remove (z : SortedSet α) (m m' : α) :
    (z.remove m).score m' = if m' = m then none else z.score m' := by
  ext s
  rw [← mem_entries_iff, remove, List.mem_filter]
  split
  · next h => simp [h]
  · next h => simp [h, mem_entries_iff]

@[simp] theorem score_remove_self (z : SortedSet α) (m : α) : (z.remove m).score m = none := by
  rw [score_remove, if_pos rfl]

theorem score_remove_of_ne (z : SortedSet α) {m m' : α} (h : m' ≠ m) : (z.remove m).score m' = z.score m' := by
  rw [score_remove, if_neg h]

theorem remove_of_score_none {z : SortedSet α} {m : α} (h : z.score m = none) : z.remove m = z := by
  ext m' : 1
  rw [score_remove]
  split
  · next hm => rw [hm, h]
  · rfl

/-- `ZADD`. -/
def add (z : SortedSet α) (m : α) (s : ℚ) : SortedSet α where
  entries := insertEntry (m, s) (z.remove m).entries
  ordered := insertEntry_pairwise (z.remove m).ordered fun _ hx heq =>
    of_decide_eq_true (List.mem_filter.mp hx).2 heq.symm
  nodup := by
    rw [((insertEntry_perm (m, s) (z.remove m).entries).map Prod.fst).nodup_iff, List.map_cons, List.nodup_cons]
    refine ⟨fun h => ?_, (z.remove m).nodup⟩
    have := mem_members_iff.mp h
    simp at this

theorem score_add (z : SortedSet α) (m m' : α) (s : ℚ) :
    (z.add m s).score m' = if m' = m then some s else z.score m' := by
  ext s'
  rw [← mem_entries_iff, add, (insertEntry_perm _ _).mem_iff, List.mem_cons, mem_entries_iff, score_remove]
  split
  · next h => simp [h, eq_comm]
  · next h => simp [h]

@[simp] theorem score_add_self (z : SortedSet α) (m : α) (s : ℚ) : (z.add m s).score m = some s := by
  rw [score_add, if_pos rfl]

theorem score_add_of_ne (z : SortedSet α) {m m' : α} (s : ℚ) (h : m' ≠ m) :
    (z.add m s).score m' = z.score m' := by
  rw [score_add, if_neg h]

theorem remove_add (z : SortedSet α) (m : α) (s : ℚ) : (z.add m s).remove m = z.remove m := by
  ext m' : 1
  rw [score_remove, score_remove, score_add]
  split <;> rfl

/-- The members with a score between zero and `hi`, in order. -/
def due (z : SortedSet α) (hi : ℚ) : List α :=
  (z.entries.filter fun e => 0 ≤ e.2 ∧ e.2 ≤ hi).map Prod.fst

/-- `LIMIT 0 limit`: a negative limit keeps everything. -/
def limited {β : Type} (limit : ℤ) (l : List β) : List β := if limit < 0 then l else l.take limit.toNat

/-- `ZRANGEBYSCORE key 0 hi LIMIT 0 limit`. -/
def rangeByScore (z : SortedSet α) (hi : ℚ) (limit : ℤ) : List α := limited limit (z.due hi)

/-- `ZCOUNT key 0 hi`. -/
def count (z : SortedSet α) (hi : ℚ) : ℕ := (z.due hi).length

/-- `ZRANGE key first last`, both ends included. -/
def range (z : SortedSet α) (first last : ℕ) : List α := (z.members.drop first).take (last + 1 - first)

/-- The members whose score passes a test, in order: `ZRANGEBYSCORE` without a limit. -/
def within (z : SortedSet α) (p : ℚ → Bool) : List α := (z.entries.filter fun e => p e.2).map Prod.fst

/-- The lowest score, as `ZRANGE key 0 0 WITHSCORES` reports it. -/
def firstScore (z : SortedSet α) : Option ℚ := (z.entries.head?).map Prod.snd

theorem limited_sublist {β : Type} (limit : ℤ) (l : List β) : (limited limit l).Sublist l := by
  unfold limited
  split
  · exact List.Sublist.refl _
  · exact List.take_sublist _ _

theorem mem_due_iff {z : SortedSet α} {hi : ℚ} {m : α} :
    m ∈ z.due hi ↔ ∃ s, z.score m = some s ∧ 0 ≤ s ∧ s ≤ hi := by
  simp only [due, List.mem_map, List.mem_filter, decide_eq_true_eq]
  constructor
  · rintro ⟨⟨m, s⟩, ⟨h, hs⟩, rfl⟩
    exact ⟨s, mem_entries_iff.mp h, hs⟩
  · rintro ⟨s, h, hs⟩
    exact ⟨(m, s), ⟨mem_entries_iff.mpr h, hs⟩, rfl⟩

theorem mem_within_iff {z : SortedSet α} {p : ℚ → Bool} {m : α} :
    m ∈ z.within p ↔ ∃ s, z.score m = some s ∧ p s = true := by
  simp only [within, List.mem_map, List.mem_filter]
  constructor
  · rintro ⟨⟨m, s⟩, ⟨h, hs⟩, rfl⟩
    exact ⟨s, mem_entries_iff.mp h, hs⟩
  · rintro ⟨s, h, hs⟩
    exact ⟨(m, s), ⟨mem_entries_iff.mpr h, hs⟩, rfl⟩

theorem card_eq_zero_iff {z : SortedSet α} : z.card = 0 ↔ ∀ m, z.score m = none := by
  rw [card, List.length_eq_zero_iff]
  constructor
  · intro h m
    rw [score, h]
    rfl
  · intro h
    refine List.eq_nil_iff_forall_not_mem.mpr fun e he => ?_
    have hscore := mem_entries_iff.mp he
    rw [h] at hscore
    exact absurd hscore (by simp)

omit [DecidableEq α] in
theorem due_nodup (z : SortedSet α) (hi : ℚ) : (z.due hi).Nodup :=
  z.nodup.sublist ((List.filter_sublist).map _)

omit [DecidableEq α] in
theorem rangeByScore_nodup (z : SortedSet α) (hi : ℚ) (limit : ℤ) : (z.rangeByScore hi limit).Nodup :=
  (z.due_nodup hi).sublist (limited_sublist limit _)

theorem score_of_mem_rangeByScore {z : SortedSet α} {hi : ℚ} {limit : ℤ} {m : α}
    (h : m ∈ z.rangeByScore hi limit) : ∃ s, z.score m = some s ∧ 0 ≤ s ∧ s ≤ hi :=
  mem_due_iff.mp ((limited_sublist limit _).subset h)

/-- What comes first in the order comes first in a range. -/
theorem sublist_due {z : SortedSet α} {hi : ℚ} {x y : α} {sx sy : ℚ} (hx : z.score x = some sx)
    (hy : z.score y = some sy) (hbefore : Before (x, sx) (y, sy)) (hxd : x ∈ z.due hi) (hyd : y ∈ z.due hi) :
    [x, y].Sublist (z.due hi) := by
  have hentry : ∀ {m s}, m ∈ z.due hi → z.score m = some s → (m, s) ∈ z.entries.filter fun e => 0 ≤ e.2 ∧ e.2 ≤ hi := by
    intro m s hm hs
    obtain ⟨s', hs', hrange⟩ := mem_due_iff.mp hm
    obtain rfl := Option.some.inj (hs.symm.trans hs')
    exact List.mem_filter.mpr ⟨mem_entries_iff.mpr hs, decide_eq_true hrange⟩
  have hsorted := z.ordered.sublist (List.filter_sublist (p := fun e => decide (0 ≤ e.2 ∧ e.2 ≤ hi)))
  obtain ⟨front, back, hsplit⟩ := List.append_of_mem (hentry hyd hy)
  have hmem := hentry hxd hx
  rw [hsplit] at hmem hsorted
  have hpair : [(x, sx), (y, sy)].Sublist (front ++ (y, sy) :: back) := by
    rcases List.mem_append.mp hmem with hfront | hback
    · exact (List.singleton_sublist.mpr hfront).append ((List.nil_sublist back).cons_cons (y, sy))
    · exfalso
      rcases List.mem_cons.mp hback with heq | hback
      · exact Before.irrefl _ (heq ▸ hbefore)
      · have hafter := List.rel_of_pairwise_cons (List.pairwise_append.mp hsorted).2.1 hback
        exact Before.irrefl _ (hafter.trans hbefore)
  unfold due
  rw [hsplit]
  exact hpair.map Prod.fst

omit [DecidableEq α] in
theorem rangeByScore_take (z : SortedSet α) (hi : ℚ) (limit : ℤ) : z.rangeByScore hi limit <+: z.due hi := by
  unfold rangeByScore limited
  split
  · exact List.prefix_rfl
  · exact List.take_prefix _ _

/-- A range with room for a member starts with the first member. -/
theorem head_rangeByScore {z : SortedSet α} {hi : ℚ} {limit : ℤ} (hlimit : 0 < limit) {x : α} (hx : x ∈ z.due hi) :
    ∃ first, (z.rangeByScore hi limit).head? = some first ∧ ∀ sx, z.score x = some sx →
      ∃ s, z.score first = some s ∧ 0 ≤ s ∧ s ≤ sx := by
  have hentries : (z.entries.filter fun e => 0 ≤ e.2 ∧ e.2 ≤ hi).Pairwise Before := z.ordered.sublist List.filter_sublist
  unfold rangeByScore limited due at *
  rw [if_neg (not_lt.mpr hlimit.le)]
  cases hlist : z.entries.filter fun e => 0 ≤ e.2 ∧ e.2 ≤ hi with
  | nil =>
    rw [hlist] at hx
    exact absurd hx List.not_mem_nil
  | cons e rest =>
    rw [hlist] at hentries hx
    obtain ⟨hmem, hrange⟩ := List.mem_filter.mp (hlist ▸ List.mem_cons_self : e ∈ z.entries.filter _)
    obtain ⟨n, hn⟩ : ∃ n, limit.toNat = n + 1 := Nat.exists_eq_succ_of_ne_zero (by omega)
    refine ⟨e.1, by rw [hn]; rfl, fun sx hsx => ⟨e.2, mem_entries_iff.mp hmem, (of_decide_eq_true hrange).1, ?_⟩⟩
    obtain ⟨⟨y, sy⟩, hy, rfl⟩ := List.mem_map.mp hx
    obtain ⟨hyentries, _⟩ := List.mem_filter.mp (hlist ▸ hy : (y, sy) ∈ z.entries.filter _)
    obtain rfl := Option.some.inj ((mem_entries_iff.mp hyentries).symm.trans hsx)
    rcases List.mem_cons.mp hy with rfl | hy
    · exact le_rfl
    · rcases List.rel_of_pairwise_cons hentries hy with hlt | ⟨heq, _⟩
      · exact hlt.le
      · exact heq.le

/-- A bounded range that contains a member contains, before it, every due member that precedes it. -/
theorem sublist_rangeByScore {z : SortedSet α} {hi : ℚ} {limit : ℤ} {x y : α} {sx sy : ℚ}
    (hx : z.score x = some sx) (hy : z.score y = some sy) (hbefore : Before (x, sx) (y, sy)) (hpos : 0 ≤ sx)
    (hmem : y ∈ z.rangeByScore hi limit) : [x, y].Sublist (z.rangeByScore hi limit) := by
  obtain ⟨rest, hrest⟩ := z.rangeByScore_take hi limit
  have hyd : y ∈ z.due hi := (limited_sublist limit _).subset hmem
  obtain ⟨sy', hsy', _, hle⟩ := mem_due_iff.mp hyd
  obtain rfl := Option.some.inj (hy.symm.trans hsy')
  have hsxle : sx ≤ sy := hbefore.elim le_of_lt fun h => h.1.le
  have hpair := sublist_due hx hy hbefore (mem_due_iff.mpr ⟨sx, hx, hpos, hsxle.trans hle⟩) hyd
  have hnodup := z.due_nodup hi
  rw [← hrest] at hpair hnodup
  obtain ⟨l₁, l₂, hsplit, h₁, h₂⟩ := List.sublist_append_iff.mp hpair
  have hout : y ∉ rest := fun h => (List.nodup_append.mp hnodup).2.2 y hmem y h rfl
  cases l₂ with
  | nil =>
    rw [List.append_nil] at hsplit
    rwa [hsplit]
  | cons z' l₂ =>
    -- the last of the two would be beyond the range
    have hlast : y ∈ z' :: l₂ := by
      have heq := congrArg List.getLast? hsplit
      rw [List.getLast?_append] at heq
      have hsome : (z' :: l₂).getLast? = some y := by
        cases hl : (z' :: l₂).getLast? with
        | none => exact absurd hl (by simp)
        | some w =>
          rw [hl] at heq
          simpa using heq.symm
      exact List.mem_of_getLast? hsome
    exact absurd (h₂.subset hlast) hout

end SortedSet

end Redis
