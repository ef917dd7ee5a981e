import Mathlib

/-!
# Redis streams

An entry id is a pair of a millisecond and a sequence number. `XADD *` takes the current millisecond unless
the last generated id already reached it. A stream here remembers everything that was ever appended and how
many entries of the front were trimmed; a reader sees the rest.
-/

namespace Redis

/-- The id of a stream entry. -/
structure StreamId where
  ms : ℕ
  seq : ℕ
deriving DecidableEq, Repr, Inhabited

namespace StreamId

/-- `0-0`, below every generated id. -/
def zero : StreamId := ⟨0, 0⟩

/-- The order of ids, first by time and then by sequence number. -/
def Lt (x y : StreamId) : Prop := x.ms < y.ms ∨ x.ms = y.ms ∧ x.seq < y.seq

instance : DecidableRel Lt := fun x y => by
  unfold Lt
  infer_instance

theorem Lt.trans {x y z : StreamId} (hxy : Lt x y) (hyz : Lt y z) : Lt x z := by
  unfold Lt at *
  omega

/-- The id `XADD *` generates at a clock value after the last id. -/
def next (clock : ℕ) (last : StreamId) : StreamId :=
  if last.ms < clock then ⟨clock, 0⟩ else ⟨last.ms, last.seq + 1⟩

theorem lt_next (clock : ℕ) (last : StreamId) : Lt last (next clock last) := by
  unfold next Lt
  split
  · exact Or.inl ‹_›
  · exact Or.inr ⟨rfl, Nat.lt_succ_self _⟩

end StreamId

/-- The last id of a list of entries, `0-0` when there is none. -/
def lastId {α : Type} (entries : List (StreamId × α)) : StreamId := (entries.getLast?.map Prod.fst).getD StreamId.zero

/-- A stream that trims its front. -/
structure Stream (α : Type) where
  published : List (StreamId × α)
  trimmed : ℕ
deriving Inhabited

namespace Stream

variable {α : Type}

/-- The missing key. -/
def empty : Stream α := ⟨[], 0⟩

/-- The entries a reader still finds. -/
def retained (s : Stream α) : List (StreamId × α) := s.published.drop s.trimmed

/-- `XADD key *`. -/
def append (clock : ℕ) (e : α) (s : Stream α) : Stream α :=
  { s with published := s.published ++ [(StreamId.next clock (lastId s.published), e)] }

/-- Trim `count` entries from the front. -/
def trim (count : ℕ) (s : Stream α) : Stream α := { s with trimmed := s.trimmed + count }

/-- `XTRIM MAXLEN ~ max`: whole nodes go, so the server chooses how much of the excess. -/
def trimByLength (choice : List StreamId → ℕ) (max : ℕ) (s : Stream α) : Stream α :=
  s.trim (min (choice (s.retained.map Prod.fst)) (s.retained.length - max))

/-- `XTRIM MINID ~ cutoff-0`: whole nodes go, all of whose ids lie before the cutoff. -/
def trimById (choice : List StreamId → ℕ) (cutoff : ℕ) (s : Stream α) : Stream α :=
  s.trim (min (choice (s.retained.map Prod.fst)) (s.retained.takeWhile fun e => e.1.ms < cutoff).length)

@[simp] theorem published_trimByLength (choice : List StreamId → ℕ) (max : ℕ) (s : Stream α) :
    (s.trimByLength choice max).published = s.published := rfl

@[simp] theorem published_trimById (choice : List StreamId → ℕ) (cutoff : ℕ) (s : Stream α) :
    (s.trimById choice cutoff).published = s.published := rfl

/-! ### The entries of a stream -/

/-- Ids increase from `0-0` on, and the newest entry is retained. -/
structure Ordered (s : Stream α) : Prop where
  increasing : s.published.Pairwise fun x y => StreamId.Lt x.1 y.1
  positive : ∀ x ∈ s.published, StreamId.Lt StreamId.zero x.1
  newest : s.trimmed = 0 ∨ s.trimmed < s.published.length

theorem ordered_empty : (empty : Stream α).Ordered := ⟨List.Pairwise.nil, by simp [empty], Or.inl rfl⟩

theorem retained_trim (count : ℕ) (s : Stream α) : (s.trim count).retained = s.retained.drop count := by
  simp only [retained, trim, List.drop_drop]

/-- Every id of an ordered stream is at most the last one. -/
theorem le_lastId {l : List (StreamId × α)} (h : l.Pairwise fun x y => StreamId.Lt x.1 y.1) {x : StreamId × α}
    (hx : x ∈ l) : x.1 = lastId l ∨ StreamId.Lt x.1 (lastId l) := by
  induction l using List.reverseRecOn with
  | nil => exact absurd hx (by simp)
  | append_singleton l last ih =>
    have hlast : lastId (l ++ [last]) = last.1 := by simp [lastId]
    rw [hlast]
    rcases List.mem_append.mp hx with hmem | hmem
    · exact Or.inr ((List.pairwise_append.mp h).2.2 x hmem last (List.mem_singleton_self last))
    · rw [List.mem_singleton.mp hmem]
      exact Or.inl rfl

theorem Ordered.append {s : Stream α} (h : s.Ordered) (clock : ℕ) (e : α) : (s.append clock e).Ordered where
  increasing := by
    refine List.pairwise_append.mpr ⟨h.increasing, List.pairwise_singleton _ _, fun x hx y hy => ?_⟩
    rw [List.mem_singleton.mp hy]
    rcases le_lastId h.increasing hx with heq | hlt
    · rw [heq]
      exact StreamId.lt_next _ _
    · exact hlt.trans (StreamId.lt_next _ _)
  positive x hx := by
    rcases List.mem_append.mp hx with hx | hx
    · exact h.positive x hx
    · rw [List.mem_singleton.mp hx]
      have hnext := StreamId.lt_next clock (lastId s.published)
      unfold StreamId.Lt StreamId.zero at *
      dsimp only at *
      omega
  newest := by
    have hlength : (s.append clock e).published.length = s.published.length + 1 := by simp [Stream.append]
    have htrimmed : (s.append clock e).trimmed = s.trimmed := rfl
    rw [hlength, htrimmed]
    rcases h.newest with hzero | hlt
    · exact Or.inl hzero
    · exact Or.inr (hlt.trans (Nat.lt_succ_self _))

theorem Ordered.trim {s : Stream α} (h : s.Ordered) {count : ℕ} (hcount : count = 0 ∨ count < s.retained.length) :
    (s.trim count).Ordered where
  increasing := h.increasing
  positive := h.positive
  newest := by
    have hlength : s.retained.length = s.published.length - s.trimmed := by simp [retained]
    have hnewest := h.newest
    simp only [Stream.trim]
    omega

theorem Ordered.trimByLength {s : Stream α} (h : s.Ordered) (choice : List StreamId → ℕ) {max : ℕ} (hmax : 0 < max) :
    (s.trimByLength choice max).Ordered := by
  refine h.trim ?_
  omega

/-- A trim by id stops in front of an entry at or after the cutoff. -/
theorem Ordered.trimById {s : Stream α} (h : s.Ordered) (choice : List StreamId → ℕ) {cutoff : ℕ} {x : StreamId × α}
    (hx : s.retained.getLast? = some x) (hcutoff : cutoff ≤ x.1.ms) : (s.trimById choice cutoff).Ordered := by
  refine h.trim (Or.inr ?_)
  have hmem := List.mem_of_getLast? hx
  have hlt : (s.retained.takeWhile fun e => e.1.ms < cutoff).length < s.retained.length := by
    refine lt_of_le_of_ne (List.takeWhile_sublist _).length_le fun heq => ?_
    have hall := List.takeWhile_eq_self_iff.mp ((List.takeWhile_sublist _).eq_of_length heq) x hmem
    simp only [decide_eq_true_eq] at hall
    omega
  omega

/-- A trim never hides the last id from a reader. -/
theorem Ordered.lastId_retained {s : Stream α} (h : s.Ordered) : lastId s.retained = lastId s.published := by
  unfold lastId retained
  rw [List.getLast?_drop]
  split
  · next hle =>
    rcases h.newest with hzero | hlt
    · have hnil : s.published = [] := List.length_eq_zero_iff.mp (by omega)
      rw [hnil]
      rfl
    · omega
  · rfl

/-- What is appended later lies after the last id. -/
theorem Ordered.lt_of_appended {s s' : Stream α} (h : s'.Ordered) {later : List (StreamId × α)}
    (hlater : s'.published = s.published ++ later) {x : StreamId × α} (hx : x ∈ later) :
    StreamId.Lt (lastId s.published) x.1 := by
  unfold lastId
  cases hlast : s.published.getLast? with
  | none => exact h.positive x (hlater ▸ List.mem_append_right _ hx)
  | some last =>
    have hincreasing := h.increasing
    rw [hlater] at hincreasing
    exact (List.pairwise_append.mp hincreasing).2.2 last (List.mem_of_getLast? hlast) x hx

end Stream

end Redis
