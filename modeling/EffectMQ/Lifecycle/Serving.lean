import EffectMQ.Lifecycle.Backlog

/-!
# The sweep at its turn

A sweep of a queue as a path of upkeep steps. Nothing that was due goes on such a path without being handled, and the
syncer whose turn it is handles an entry of its own category, if there is one that is due.
-/

namespace EffectMQ

open Redis Transition

/-- A path of the sweeps of a queue. -/
inductive UpkeepPath (env : Env) (queue : String) (b : Busy) (s : Store) : Busy → Store → Prop
  | refl : UpkeepPath env queue b s b s
  | tail {b' b'' : Busy} {s' s'' : Store} {act : EngineAction} (h : UpkeepPath env queue b s b' s')
      (hstep : EngineStep env b' s' act b'' s'') (hact : act.Maintains queue s') : UpkeepPath env queue b s b'' s''

/-- What is kept between two invocations, and by every sweep. -/
structure Store.Upkept (s : Store) : Prop where
  timed : s.Timed
  leased : ∀ k, (s.view k).Leased

/-- An entry is handled on the way from one store to another. -/
def Member.HandledIn (env : Env) (queue : String) (P : EngineAction → Prop) (s s' : Store) (m : Member) : Prop :=
  ∃ b₁ s₁ act b₂ s₂, EnginePath env P none s b₁ s₁ ∧ EngineStep env b₁ s₁ act b₂ s₂ ∧ P act ∧
    EnginePath env P b₂ s₂ none s' ∧ m.Due env.now queue s₁ ∧ m.HandledBy queue s₁ act s₂

section

variable {env : Env} {queue : String} {b b' b'' : Busy} {s s' s'' : Store} {act : EngineAction} {m : Member}

theorem EngineAction.Maintains.isSweep (h : act.Maintains queue s) : act.IsSweep := by
  rcases h with h | ⟨id, rfl⟩ | ⟨holder, rfl, _⟩
  · exact h.isUpkeep.isSweep
  · exact trivial
  · exact trivial

theorem EngineAction.IsSweep.not_revoke (h : act.IsSweep) (k : TaskKey) : act.on k ≠ some .revoke := by
  intro hon
  rcases EngineAction.on_cases hon with rfl | ⟨_, _, _, rfl, heq⟩ | ⟨_, rfl, _⟩ | ⟨_, _, rfl, _, heq⟩
  · exact h
  · exact absurd heq (by simp)
  · exact h
  · exact absurd heq (by simp)

namespace UpkeepPath

theorem single (hstep : EngineStep env b s act b' s') (hact : act.Maintains queue s) : UpkeepPath env queue b s b' s' :=
  refl.tail hstep hact

theorem trans (h : UpkeepPath env queue b s b' s') (h' : UpkeepPath env queue b' s' b'' s'') :
    UpkeepPath env queue b s b'' s'' := by
  induction h' with
  | refl => exact h
  | tail _ hstep hact ih => exact ih.tail hstep hact

theorem path (h : UpkeepPath env queue b s b' s') : EnginePath env EngineAction.IsSweep b s b' s' := by
  induction h with
  | refl => exact .refl
  | tail _ hstep hact ih => exact ih.tail hstep hact.isSweep

theorem sane (h : UpkeepPath env queue b s b' s') (hs : Sane env.now s) : Sane env.now s' := h.path.sane hs

theorem upkept (h : UpkeepPath env queue b s b' s') (hs : Sane env.now s) (hu : s.Upkept) : s'.Upkept where
  timed := h.path.timed hs hu.timed
  leased k := h.path.leased hs (hu.leased k) fun _ hact => hact.not_revoke k

theorem backlog_le (h : UpkeepPath env queue b s b' s') (hs : Sane env.now s) (hu : s.Upkept) :
    s'.backlog env.now queue b' ≤ s.backlog env.now queue b := by
  induction h with
  | refl => exact le_rfl
  | tail h hstep hact ih =>
    have hu' := h.upkept hs hu
    exact (hstep.backlog_le hact (h.sane hs) hu'.timed hu'.leased).trans ih

/-- What was due and no longer is has been handled. -/
theorem handled (h : UpkeepPath env queue b s b' s') (hs : Sane env.now s) (hu : s.Upkept) (hdue : m.Due env.now queue s)
    (hgone : ¬ m.Due env.now queue s') :
    ∃ b₁ s₁ act b₂ s₂, UpkeepPath env queue b s b₁ s₁ ∧ EngineStep env b₁ s₁ act b₂ s₂ ∧ act.Maintains queue s₁ ∧
      UpkeepPath env queue b₂ s₂ b' s' ∧ m.Due env.now queue s₁ ∧ m.HandledBy queue s₁ act s₂ := by
  induction h with
  | refl => exact absurd hdue hgone
  | @tail b₁ b₂ s₁ s₂ act h hstep hact ih =>
    by_cases hstill : m.Due env.now queue s₁
    · exact ⟨b₁, s₁, act, b₂, s₂, h, hstep, hact, .refl, hstill,
        hstep.handles hact (h.sane hs) (h.upkept hs hu).timed hstill hgone⟩
    · obtain ⟨b₃, s₃, act', b₄, s₄, hbefore, hhandles, hact', hafter, hrest⟩ := ih hstill
      exact ⟨b₃, s₃, act', b₄, s₄, hbefore, hhandles, hact', hafter.tail hstep hact, hrest⟩

end UpkeepPath

/-- An entry is handled by one step of an upkeep path. -/
def Member.Served (env : Env) (queue : String) (s s' : Store) (m : Member) : Prop :=
  ∃ b₁ s₁ act b₂ s₂, UpkeepPath env queue none s b₁ s₁ ∧ EngineStep env b₁ s₁ act b₂ s₂ ∧ act.Maintains queue s₁ ∧
    UpkeepPath env queue b₂ s₂ none s' ∧ m.Due env.now queue s₁ ∧ m.HandledBy queue s₁ act s₂

theorem Member.Served.append (h : m.Served env queue s s') (h' : UpkeepPath env queue none s' none s'') :
    m.Served env queue s s'' := by
  obtain ⟨b₁, s₁, act, b₂, s₂, hbefore, hstep, hact, hafter, hhandled⟩ := h
  exact ⟨b₁, s₁, act, b₂, s₂, hbefore, hstep, hact, hafter.trans h', hhandled⟩

theorem Member.Served.backlog_lt (h : m.Served env queue s s') (hs : Sane env.now s) (hu : s.Upkept) :
    s'.backlog env.now queue none < s.backlog env.now queue none := by
  obtain ⟨b₁, s₁, act, b₂, s₂, hbefore, hstep, hact, hafter, hdue, hhandled⟩ := h
  have hs₁ := hbefore.sane hs
  have hu₁ := hbefore.upkept hs hu
  have hu₂ := (UpkeepPath.single hstep hact).upkept hs₁ hu₁
  calc s'.backlog env.now queue none
      ≤ s₂.backlog env.now queue b₂ := hafter.backlog_le (hstep.sane hs₁) hu₂
    _ < s₁.backlog env.now queue b₁ := hstep.backlog_lt hact hs₁ hu₁.timed hu₁.leased hdue hhandled
    _ ≤ s.backlog env.now queue none := hbefore.backlog_le hs hu

/-! ### Every syncer is an upkeep path -/

theorem EnginePath.upkeep {P : EngineAction → Prop} (h : EnginePath env P b s b' s')
    (hP : ∀ act, P act → ∀ s, act.Maintains queue s) : UpkeepPath env queue b s b' s' := by
  induction h with
  | refl => exact .refl
  | tail _ hstep hact ih => exact ih.tail hstep (hP _ hact _)

theorem EnginePath.upkeep_of_tends (h : EnginePath env (EngineAction.Tends queue) b s b' s') :
    UpkeepPath env queue b s b' s' := h.upkeep fun _ hact _ => Or.inl hact

theorem EnginePath.upkeep_of_unwinds (h : EnginePath env EngineAction.Unwinds b s b' s') :
    UpkeepPath env queue b s b' s' := h.upkeep fun _ hact _ => Or.inl (Or.inr hact)

theorem syncDelayed_upkeep {w : World} (hs : Sane env.now w.store) :
    UpkeepPath env queue none w.store none (syncDelayed env queue w).store :=
  (syncDelayed_path hs).upkeep fun _ hact _ => Or.inr (Or.inl hact)

theorem releaseOwnedHolds_upkeep {w : World} (hs : Sane env.now w.store) {holder : TaskIdentity}
    (hnoted : ((w.store.continuations queue).score holder).isSome) :
    UpkeepPath env queue none w.store none (releaseOwnedHolds env holder w).store :=
  (UpkeepPath.single .start (Or.inr (Or.inr ⟨holder, rfl, hnoted⟩))).trans
    (releaseOwnedHolds_unwinds holder hs).upkeep_of_unwinds

/-- The first entry of a continuation index, if there is one. -/
theorem range_zero (z : SortedSet TaskIdentity) : z.range 0 0 = z.members.head?.toList := by
  unfold SortedSet.range
  cases z.members <;> rfl

theorem syncRetentionContinuations_upkeep {w : World} (hs : Sane env.now w.store) :
    UpkeepPath env queue none w.store none (syncRetentionContinuations env queue w).store := by
  unfold syncRetentionContinuations
  rw [range_zero]
  split
  · exact .refl
  · cases hhead : (w.store.continuations queue).members.head? with
    | none => exact .refl
    | some holder =>
      exact releaseOwnedHolds_upkeep hs (SortedSet.mem_members_iff.mp (List.mem_of_head? hhead))

theorem syncer_upkeep {sync : Env → String → World → World} (hsync : sync ∈ syncers) {w : World}
    (hs : Sane env.now w.store) : UpkeepPath env queue none w.store none (sync env queue w).store := by
  simp only [syncers, List.mem_cons, List.not_mem_nil, or_false] at hsync
  rcases hsync with rfl | rfl | rfl | rfl | rfl | rfl | rfl
  · exact syncDelayed_upkeep hs
  · exact (syncLocks_path hs).upkeep_of_tends
  · exact syncRetentionContinuations_upkeep hs
  · exact (syncTaskExpiry_path hs).upkeep_of_tends
  · exact (syncResultExpiry_path hs).upkeep_of_tends
  · exact (syncTerminalExpiry_path hs).upkeep_of_tends
  · exact (syncDeadLetterExpiry_path hs).upkeep_of_tends

theorem syncTurn_upkeep (cursor offset : ℕ) {w : World} (hs : Sane env.now w.store) :
    UpkeepPath env queue none w.store none (syncTurn env queue cursor w offset).store := by
  unfold syncTurn
  split
  · exact .refl
  · split
    · next sync hsync => exact syncer_upkeep (List.mem_of_getElem? hsync) hs
    · exact .refl

theorem syncTurns_upkeep (cursor : ℕ) (offsets : List ℕ) {w : World} (hs : Sane env.now w.store) :
    UpkeepPath env queue none w.store none (offsets.foldl (syncTurn env queue cursor) w).store := by
  induction offsets generalizing w with
  | nil => exact .refl
  | cons offset rest ih =>
    have hturn := @syncTurn_upkeep env queue cursor offset w hs
    exact hturn.trans (ih (hturn.sane hs))

/-! ### The first turn -/

/-- A path that starts with the handling of an entry. -/
theorem Member.Served.first {t : Store} (hstep : EngineStep env none s act b t) (hact : act.Maintains queue s)
    (hrest : UpkeepPath env queue b t none s') (hdue : m.Due env.now queue s) (hhandled : m.HandledBy queue s act t) :
    m.Served env queue s s' := ⟨_, _, _, _, _, .refl, hstep, hact, hrest, hdue, hhandled⟩

variable {w : World}

theorem syncDelayed_serves (hs : Sane env.now w.store) (hu : w.store.Upkept) (hroom : 0 < w.remaining) {id : String}
    (hdue : (Member.delayed id).Due env.now queue w.store) :
    ∃ id, (Member.delayed id).Served env queue w.store (syncDelayed env queue w).store := by
  have hmem : id ∈ (w.store.lists queue).scheduled.due env.now :=
    (mem_due_of_nonneg _ (hu.timed.views (queue, id)).scheduled).mpr hdue
  obtain ⟨first, hfirst, _⟩ := SortedSet.head_rangeByScore hroom hmem
  have hfirst_due := @due_of_range env queue w first (List.mem_of_head? hfirst)
  let w₁ := w.spend ((w.store.lists queue).scheduled.rangeByScore env.now w.remaining).length
  refine ⟨first, .first (@promote_step env queue w₁ first hs hfirst_due) (Or.inr (Or.inl ⟨first, rfl⟩)) ?_ hfirst_due rfl⟩
  unfold syncDelayed
  rw [if_neg (not_le.mpr hroom)]
  exact (foldl_tail (G := fun s id => TaskView.Due env ((s.view (queue, id)).score .scheduled)) promote_keeps hfirst
    (SortedSet.rangeByScore_nodup _ _ _) (w := w₁) hs fun _ => due_of_range).upkeep fun _ hact _ => Or.inr (Or.inl hact)

theorem syncLocks_serves (hs : Sane env.now w.store) (hu : w.store.Upkept) (hroom : 0 < w.remaining) {id : String}
    (hdue : (Member.lock id).Due env.now queue w.store) :
    ∃ id, (Member.lock id).Served env queue w.store (syncLocks env queue w).store := by
  obtain ⟨⟨t, hscore, hle⟩, hexpired⟩ := hdue
  obtain ⟨l, hlock, rfl⟩ := hu.leased (queue, id) t hscore
  have hmem : id ∈ (w.store.lists queue).active.due env.now :=
    (mem_due_of_nonneg _ (hu.timed.views (queue, id)).active).mpr ⟨_, hscore, hle⟩
  obtain ⟨first, hfirst, hlowest⟩ := SortedSet.head_rangeByScore hroom hmem
  obtain ⟨t, hfirst_score, _, hlower⟩ := hlowest _ hscore
  -- the lease of the first entry ends no later than the one that is known to be over
  have hfirst_expired : ∀ l, w.store.lock (queue, first) = some l → l.expiresAt < env.now := by
    intro l' hl'
    obtain ⟨l'', hl'', rfl⟩ := hu.leased (queue, first) t hfirst_score
    obtain rfl := Option.some.inj (hl'.symm.trans hl'')
    exact hlower.trans_lt (hexpired l hlock)
  have hfirst_due : (Member.lock first).Due env.now queue w.store :=
    ⟨⟨t, hfirst_score, hlower.trans hle⟩, hfirst_expired⟩
  have hactive : getExpiredActiveList env queue w = (w.store.lists queue).active.rangeByScore env.now w.remaining :=
    if_neg (not_le.mpr hroom)
  obtain ⟨hnodup, hrunning⟩ := @expiredActive_spec env queue w hs
  obtain ⟨r, hfirst_running⟩ := hrunning first (hactive ▸ List.mem_of_head? hfirst)
  have hidle : isLocked env w.store queue first = false := by
    rw [isLocked, ← leaseholder_view, TaskView.leaseholder_eq_none_iff.mpr hfirst_expired]
    rfl
  let w₁ := w.spend (getExpiredActiveList env queue w).length
  obtain ⟨a, hfailure, t', hstep, hunwinds⟩ := @failStalled_step env queue w₁ first hs r hfirst_running hidle
  refine ⟨first, .first hstep (Or.inl (Or.inl ⟨first, a, rfl, hfailure.isUpkeep⟩)) ?_ hfirst_due ⟨a, _, hfailure, rfl⟩⟩
  refine hunwinds.upkeep_of_unwinds.trans ?_
  exact (foldl_tail (G := fun s id => ∃ r, (s.view (queue, id)).Running r) failStalled_path
    (hactive ▸ hfirst : (getExpiredActiveList env queue w).head? = some first) hnodup (w := w₁) hs
    hrunning).upkeep_of_tends

theorem EnginePath.continuations_of_drops {holder : TaskIdentity}
    (h : EnginePath env (fun act => ∃ x refiled, act = .drop holder x refiled) b s b' s') :
    s'.continuations = s.continuations := by
  induction h with
  | refl => rfl
  | tail _ hstep hact ih =>
    obtain ⟨x, refiled, rfl⟩ := hact
    rcases hstep.continuations with heq | ⟨_, heq, _⟩
    · exact heq.trans ih
    · exact absurd heq (by simp)

theorem syncRetentionContinuations_serves (hs : Sane env.now w.store) (hroom : 0 < w.remaining) {x : TaskIdentity}
    (hdue : (Member.continuation x).Due env.now queue w.store) :
    ∃ x, (Member.continuation x).Served env queue w.store (syncRetentionContinuations env queue w).store := by
  obtain ⟨holder, hhead⟩ : ∃ holder, (w.store.continuations queue).members.head? = some holder := by
    have hmem := SortedSet.mem_members_iff.mpr hdue
    cases hmembers : (w.store.continuations queue).members with
    | nil => exact absurd (hmembers ▸ hmem) List.not_mem_nil
    | cons holder rest => exact ⟨holder, rfl⟩
  have hnoted := SortedSet.mem_members_iff.mp (List.mem_of_head? hhead)
  unfold syncRetentionContinuations
  rw [range_zero, if_neg (not_le.mpr hroom), hhead]
  obtain ⟨s₁, s₂, hpop, hdrops, hnote, hempty⟩ := releaseOwnedHolds_steps holder hs
  have hstart : UpkeepPath env queue none w.store (some (holder, [])) w.store :=
    .single .start (Or.inr (Or.inr ⟨holder, rfl, hnoted⟩))
  have hpath : UpkeepPath env queue (some (holder, poppedMembers env holder w)) s₁ (some (holder, [])) s₂ := by
    refine hdrops.upkeep ?_
    rintro _ ⟨x, refiled, rfl⟩ s
    exact Or.inl (Or.inr trivial)
  by_cases hretains : w.store.retains holder = ∅
  · -- an entry without holds goes with its note
    have hstill : ((s₂.continuations queue).score holder).isSome := by
      have hsame : s₂.continuations = w.store.continuations := by
        rw [hdrops.continuations_of_drops]
        rcases hpop.continuations with heq | ⟨_, heq, _⟩
        · exact heq
        · exact absurd heq (by simp)
      rw [hsame]
      exact hnoted
    exact ⟨holder, _, _, _, _, _, (hstart.tail hpop (Or.inl (Or.inr trivial))).trans hpath, hnote,
      Or.inl (Or.inr trivial), .refl, hstill, Or.inr ⟨rfl, hempty hretains⟩⟩
  · have hpopped : poppedMembers env holder w ≠ [] := by
      have hcard := Finset.card_pos.mpr (Finset.nonempty_iff_ne_empty.mpr hretains)
      rw [← List.length_pos_iff, poppedMembers, if_pos hroom, env.spop.length]
      omega
    exact ⟨holder, _, _, _, _, _, hstart, hpop, Or.inl (Or.inr trivial),
      hpath.tail hnote (Or.inl (Or.inr trivial)), hnoted, Or.inl ⟨_, hpopped, rfl⟩⟩

/-- The first member of an expiry index is handled by its rule. -/
theorem expiry_serves {f : World → TaskIdentity → World} {date : Dates → Option ℚ}
    {A : Store → TaskIdentity → TaskAction → Prop} (hf : Expires env queue date f A)
    (index : ExpiryIndexes → SortedSet TaskIdentity) (hdate : ∀ (e : ExpiryIndexes) x, (index e).score x = date (e.dates x))
    (hnone : date Dates.none = none) (entry : TaskIdentity → Member)
    (hentry : ∀ s x, (entry x).Due env.now queue s ↔ ∃ t, (index (s.expiry queue)).score x = some t ∧ t ≤ env.now)
    (hdates : ∀ d : Dates, date d ∈ [d.task, d.result, d.terminal, d.deadLetter, d.deadLetterExpiry])
    (hhandles : ∀ {s t : Store} {x : TaskIdentity} {a : TaskAction}, s.Timed → x.queue = queue →
      (entry x).Due env.now queue s → A s x a → EngineStep env none s (.task (queue, x.id) a) none t →
      (entry x).HandledBy queue s (.task (queue, x.id) a) t)
    (hs : Sane env.now w.store) (hu : w.store.Upkept) (hroom : 0 < w.remaining) {x : TaskIdentity}
    (hdue : (entry x).Due env.now queue w.store) :
    ∃ x, (entry x).Served env queue w.store ((dueExpiryMembers env (index (w.store.expiry queue)) w).foldl f
      (w.spend (dueExpiryMembers env (index (w.store.expiry queue)) w).length)).store := by
  have hmem : x ∈ (index (w.store.expiry queue)).due env.now := by
    refine (mem_due_of_nonneg _ fun t ht => ?_).mpr ((hentry _ _).mp hdue)
    rw [hdate] at ht
    obtain ⟨_, hview⟩ := dates_of_homed hs.homed hnone ht
    exact (hu.timed.views (queue, x.id)).nonneg x.generation _ (hdates _) t hview
  obtain ⟨hnodup, hall⟩ := due_members hs queue index date hdate hnone
  have hmembers : dueExpiryMembers env (index (w.store.expiry queue)) w =
      (index (w.store.expiry queue)).rangeByScore env.now w.remaining := if_neg (not_le.mpr hroom)
  obtain ⟨first, hfirst, hlowest⟩ := SortedSet.head_rangeByScore hroom hmem
  rw [← hmembers] at hfirst
  have hfirst_due := hall first (List.mem_of_head? hfirst)
  obtain ⟨hqueue, t, hview, hle⟩ := hfirst_due
  have hentry_due : (entry first).Due env.now queue w.store := by
    refine (hentry _ _).mpr ⟨t, ?_, hle⟩
    rw [hdate]
    subst hqueue
    exact hview
  let w₁ := w.spend (dueExpiryMembers env (index (w.store.expiry queue)) w).length
  obtain ⟨a, hA, hupkeep, hstep, _⟩ := hf w₁ first hs ⟨hqueue, t, hview, hle⟩
  exact ⟨first, .first hstep (Or.inl (Or.inl ⟨first.id, a, rfl, hupkeep⟩))
    (foldl_tail hf.keeps hfirst hnodup (w := w₁) hs hall).upkeep_of_tends hentry_due
    (hhandles hu.timed hqueue hentry_due hA hstep)⟩

theorem syncTaskExpiry_serves (hs : Sane env.now w.store) (hu : w.store.Upkept) (hroom : 0 < w.remaining)
    {x : TaskIdentity} (hdue : (Member.task x).Due env.now queue w.store) :
    ∃ x, (Member.task x).Served env queue w.store (syncTaskExpiry env queue w).store := by
  refine expiry_serves expireTask_expires ExpiryIndexes.tasks (fun _ _ => rfl) rfl Member.task (fun _ _ => Iff.rfl)
    (fun d => by simp) ?_ hs hu hroom hdue
  intro s t x a ht hqueue hdue hA hstep
  rcases hA with ⟨⟨r, hsettled, hgeneration⟩, rfl | rfl⟩ | ⟨hgoing, rfl⟩
  · refine Or.inl (disposed_of_lost hqueue hsettled hgeneration ?_)
    rw [hstep.view_task.1.2]
    rfl
  · exact Or.inr rfl
  · -- a date for the record means that it has settled
    obtain ⟨t, hdate, _⟩ := hdue
    subst hqueue
    obtain ⟨r, hsettled, hgeneration⟩ := (ht.views (x.queue, x.id)).settled x.generation
      (Or.inl (Option.isSome_iff_exists.mpr ⟨t, hdate⟩))
    exact absurd hsettled.outcome (by simp [hgoing r hsettled.record hgeneration])

theorem syncResultExpiry_serves (hs : Sane env.now w.store) (hu : w.store.Upkept) (hroom : 0 < w.remaining)
    {x : TaskIdentity} (hdue : (Member.result x).Due env.now queue w.store) :
    ∃ x, (Member.result x).Served env queue w.store (syncResultExpiry env queue w).store := by
  refine expiry_serves expireResult_expires ExpiryIndexes.results (fun _ _ => rfl) rfl Member.result (fun _ _ => Iff.rfl)
    (fun d => by simp) ?_ hs hu hroom hdue
  rintro s t x a _ _ _ ⟨held, rfl⟩ _
  exact ⟨held, rfl⟩

theorem syncTerminalExpiry_serves (hs : Sane env.now w.store) (hu : w.store.Upkept) (hroom : 0 < w.remaining)
    {x : TaskIdentity} (hdue : (Member.terminal x).Due env.now queue w.store) :
    ∃ x, (Member.terminal x).Served env queue w.store (syncTerminalExpiry env queue w).store := by
  refine expiry_serves expireTerminal_expires ExpiryIndexes.terminal (fun _ _ => rfl) rfl Member.terminal
    (fun _ _ => Iff.rfl) (fun d => by simp) ?_ hs hu hroom hdue
  rintro s t x a _ _ _ rfl _
  exact Or.inl rfl

theorem syncDeadLetterExpiry_serves (hs : Sane env.now w.store) (hu : w.store.Upkept) (hroom : 0 < w.remaining)
    {x : TaskIdentity} (hdue : (Member.deadLetter x).Due env.now queue w.store) :
    ∃ x, (Member.deadLetter x).Served env queue w.store (syncDeadLetterExpiry env queue w).store := by
  refine expiry_serves expireDeadLetter_expires ExpiryIndexes.deadLetterExpiry (fun _ _ => rfl) rfl Member.deadLetter
    (fun _ _ => Iff.rfl) (fun d => by simp) ?_ hs hu hroom hdue
  rintro s t x a _ _ _ rfl _
  rfl

/-- The syncer of a category with a due entry handles an entry of the category. -/
theorem syncer_serves {sync : Env → String → World → World} (hs : Sane env.now w.store) (hu : w.store.Upkept)
    (hroom : 0 < w.remaining) (hdue : m.Due env.now queue w.store) (hsync : syncers[m.category]? = some sync) :
    ∃ m' : Member, m'.category = m.category ∧ m'.Served env queue w.store (sync env queue w).store := by
  cases m with
  | delayed id =>
    obtain rfl := Option.some.inj hsync
    obtain ⟨first, hserved⟩ := syncDelayed_serves hs hu hroom hdue
    exact ⟨.delayed first, rfl, hserved⟩
  | lock id =>
    obtain rfl := Option.some.inj hsync
    obtain ⟨first, hserved⟩ := syncLocks_serves hs hu hroom hdue
    exact ⟨.lock first, rfl, hserved⟩
  | continuation x =>
    obtain rfl := Option.some.inj hsync
    obtain ⟨first, hserved⟩ := syncRetentionContinuations_serves hs hroom hdue
    exact ⟨.continuation first, rfl, hserved⟩
  | task x =>
    obtain rfl := Option.some.inj hsync
    obtain ⟨first, hserved⟩ := syncTaskExpiry_serves hs hu hroom hdue
    exact ⟨.task first, rfl, hserved⟩
  | result x =>
    obtain rfl := Option.some.inj hsync
    obtain ⟨first, hserved⟩ := syncResultExpiry_serves hs hu hroom hdue
    exact ⟨.result first, rfl, hserved⟩
  | terminal x =>
    obtain rfl := Option.some.inj hsync
    obtain ⟨first, hserved⟩ := syncTerminalExpiry_serves hs hu hroom hdue
    exact ⟨.terminal first, rfl, hserved⟩
  | deadLetter x =>
    obtain rfl := Option.some.inj hsync
    obtain ⟨first, hserved⟩ := syncDeadLetterExpiry_serves hs hu hroom hdue
    exact ⟨.deadLetter first, rfl, hserved⟩

/-! ### The whole sweep -/

/-- A sweep works along an upkeep path and then moves its cursor. -/
theorem sweep_upkeep (hs : Sane env.now s) (queue : String) :
    ∃ t, UpkeepPath env queue none s none t ∧ sweep env queue s =
        { t with
          maintenanceCursor :=
            Function.update t.maintenanceCursor queue ((s.maintenanceCursor queue + 1) % syncers.length) } ∧
      ∀ m : Member, m.Due env.now queue s → m.category = s.maintenanceCursor queue % syncers.length →
        s.Upkept → ∃ m' : Member, m'.category = m.category ∧ m'.Served env queue s t := by
  refine ⟨_, syncTurns_upkeep (s.maintenanceCursor queue) (List.range syncers.length) (w := World.begin env s) hs, rfl, ?_⟩
  intro m hdue hcategory hu
  have hroom : 0 < (World.begin env s).remaining := Nat.cast_pos.mpr env.batch_pos
  have hfirst : List.range syncers.length = 0 :: [1, 2, 3, 4, 5, 6] := rfl
  obtain ⟨sync, hsync⟩ : ∃ sync, syncers[m.category]? = some sync := by
    cases m <;> exact ⟨_, rfl⟩
  have hturn : syncTurn env queue (s.maintenanceCursor queue) (World.begin env s) 0 = sync env queue (World.begin env s) := by
    rw [syncTurn, if_neg (not_le.mpr hroom), Nat.add_zero, ← hcategory, hsync]
  obtain ⟨m', hm', hserved⟩ := syncer_serves (w := World.begin env s) hs hu hroom hdue hsync
  refine ⟨m', hm', ?_⟩
  rw [hfirst, List.foldl_cons, hturn]
  exact hserved.append (syncTurns_upkeep _ _ ((syncer_upkeep (List.mem_of_getElem? hsync) hs).sane hs))

end

end EffectMQ
