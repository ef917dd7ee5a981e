import EffectMQ.Lifecycle.Fetch
import EffectMQ.Lifecycle.Scenario
import EffectMQ.Properties.Upkeep

/-!
# One budget for a whole invocation

The sweep of an invocation and the releases that it calls draw from one budget. They never take more than the batch, nothing
is asked for with a negative limit, and what the budget did not reach is still to be found by the next sweep.
-/

namespace EffectMQ

open Redis Transition

/-- What an invocation draws from its budget. -/
def Call.draws (s : Store) (c : Call) : List Draw := c.op.draws c.env (World.begin c.env s)

/-- An entry of an index whose time has come. -/
def Member.DueAt (now : ℚ) (queue : String) (s : Store) (m : Member) : Prop := ∃ t, m.score queue s = some t ∧ t ≤ now

/-- The entry is the active one of the task whose attempt the invocation ends under its lease. -/
def Member.EndedBy (queue : String) (s : Store) (c : Call) (m : Member) : Prop :=
  ∃ id leaseToken, m = .lock id ∧ c.op.lease = some ((queue, id), leaseToken) ∧
    ((c.op.swept c.env s).view (queue, id)).leaseholder c.env = some leaseToken

section

variable {env : Env} {queue queue' id : String} {m : Member} {s s' : Store} {op : Op} {reply : Reply} {a : TaskAction}

theorem Member.Left.refl (h : m.Indexed queue s) : m.Left queue s s := Or.inl ⟨h, rfl⟩

theorem TaskAction.IsFailure.entry {cause : Cause} {error : LuaValue} {retryAt : ℚ} (h : a.IsFailure cause error retryAt)
    (k : TaskKey) : a.entry k = some (.lock k.2) := by
  rcases h with rfl | ⟨held, rfl⟩ <;> rfl

/-- The end of an attempt takes the entry of its own task at most. -/
theorem EnginePath.left_of_end (hpath : EnginePath env (fun act => act = .task (queue', id) a ∨ act.IsRelease) none s none s')
    (hentry : a.entry (queue', id) = some (.lock id)) (hs : Sane env.now s) (ht : s.Timed) (hkind : m.category ≠ 2)
    (h : m.Indexed queue s) : m.Left queue s s' ∨ (queue' = queue ∧ m = .lock id) := by
  by_cases hown : queue' = queue ∧ m = .lock id
  · exact Or.inr hown
  · refine Or.inl (hpath.left hs ht hkind h fun act hact htaken => absurd htaken ?_)
    rcases hact with rfl | hrelease
    · simp only [EngineAction.entries, hentry]
      split
      · next hqueue =>
        intro hmem
        exact hown ⟨hqueue, by simpa using hmem⟩
      · exact List.not_mem_nil
    · rw [hrelease.entries_eq]
      exact List.not_mem_nil

/-- What an effect leaves in the indexes: it takes the active entry of the task whose attempt it ends, if any. -/
theorem Effect.left (h : Effect env s op reply s') (hs : Sane env.now s) (ht : s.Timed)
    (hforced : ∀ queue id, op = .forceRemoveTask queue id → s.task (queue, id) = none → s' = s)
    (hkind : m.category ≠ 2) (hindexed : m.Indexed queue s) :
    m.Left queue s s' ∨ ∃ id leaseToken, m = .lock id ∧ op.lease = some ((queue, id), leaseToken) ∧
      (s.view (queue, id)).leaseholder env = some leaseToken := by
  have hidle : ∀ {P : EngineAction → Prop} {s' : Store}, EnginePath env P none s none s' →
      (∀ act, P act → act.entries queue = []) → m.Left queue s s' := fun hpath hP =>
    hpath.left hs ht hkind hindexed fun act hact htaken => by
      rw [hP act hact] at htaken
      exact absurd htaken List.not_mem_nil
  have hquiet : ∀ {k : TaskKey} {a : TaskAction}, a.entry k = none → (EngineAction.task k a).entries queue = [] := by
    intro k a hentry
    simp [EngineAction.entries, hentry]
  cases h with
  | refused | answered => exact Or.inl (.refl hindexed)
  | offered hvalid h =>
    refine Or.inl (hidle h.path ?_)
    rintro act (⟨_, _, rfl⟩ | ⟨rfl, _⟩ | ⟨_, rfl⟩)
    · rfl
    · exact hquiet rfl
    · rfl
  | leased hhead htask hstep => exact Or.inl (hidle (.single hstep rfl) fun act hact => hact ▸ hquiet rfl)
  | renewed hstep => exact Or.inl (hidle (.single hstep rfl) fun act hact => hact ▸ hquiet rfl)
  | progressed hgeneration hstep => exact Or.inl (hidle (.single hstep rfl) fun act hact => hact ▸ hquiet rfl)
  | scheduled op reply hop hreply hstep => exact Or.inl (hidle (.single hstep rfl) fun act hact => hact ▸ rfl)
  | succeeded howner hends =>
    rcases hends.path.left_of_end rfl hs ht hkind hindexed with hleft | ⟨rfl, rfl⟩
    · exact Or.inl hleft
    · exact Or.inr ⟨_, _, rfl, rfl, howner⟩
  | failed howner ha hends =>
    rcases hends.path.left_of_end (ha.entry _) hs ht hkind hindexed with hleft | ⟨rfl, rfl⟩
    · exact Or.inl hleft
    · exact Or.inr ⟨_, _, rfl, rfl, howner⟩
  | released hstep =>
    rcases (EnginePath.single hstep (Or.inl rfl)).left_of_end rfl hs ht hkind hindexed with hleft | ⟨rfl, rfl⟩
    · exact Or.inl hleft
    · exact Or.inr ⟨_, _, rfl, rfl, hstep.view_task.1.1.2⟩
  | removed hidle' hheld hpath =>
    refine Or.inl (hidle hpath ?_)
    rintro act (rfl | hrelease)
    · exact hquiet rfl
    · exact hrelease.entries_eq
  | @forced queue' id _ _ hrevoke hpath =>
    refine Or.inl ?_
    by_cases hnone : s.task (queue', id) = none
    · rw [hforced queue' id rfl hnone]
      exact .refl hindexed
    · obtain ⟨r, hr⟩ := Option.ne_none_iff_exists'.mp hnone
      have hidentity : s.identity queue' id = ⟨queue', id, r.generation⟩ := identity_of_record hr
      have hcurrent : (s.current (s.identity queue' id)).isSome := by
        rw [hidentity, current_eq_some_iff.mpr ⟨hr, rfl⟩]
        rfl
      have hwhole := (EnginePath.single hrevoke (Or.inl rfl)).trans (hpath.mono fun act hact => Or.inr hact :
        EnginePath env (fun act => act = .task (queue', id) .revoke ∨ act.IsForcedRemoval (s.identity queue' id)) _ _ _ _)
      refine hwhole.left hs ht hkind hindexed ?_
      rintro act (rfl | rfl | hrelease) htaken
      · rw [hquiet rfl] at htaken
        exact absurd htaken List.not_mem_nil
      · simp only [EngineAction.entries, List.mem_cons, List.not_mem_nil, or_false] at htaken
        rcases htaken with rfl | rfl | rfl | rfl <;> exact ⟨rfl, hcurrent⟩
      · rw [hrelease.entries_eq] at htaken
        exact absurd htaken List.not_mem_nil

/-! ### Entries -/

theorem Op.sweep_draws (hsweeps : op.sweeps = some queue) (w : World) :
    ∃ rest, op.draws env w = sweepDraws env queue w ++ rest := by
  cases op with
  | createTask a =>
    simp only [Op.sweeps, Option.ite_none_right_eq_some] at hsweeps
    obtain ⟨hvalid, hqueue⟩ := hsweeps
    obtain rfl := Option.some.inj hqueue
    exact ⟨[], by simp [Op.draws, hvalid]⟩
  | takeTask queue' leaseToken lockTimeout =>
    simp only [Op.sweeps, Option.ite_none_right_eq_some] at hsweeps
    obtain ⟨hvalid, hqueue⟩ := hsweeps
    obtain rfl := Option.some.inj hqueue
    exact ⟨[], by simp [Op.draws, hvalid]⟩
  | writeError queue' leaseToken id error retryAt =>
    simp only [Op.sweeps, Option.ite_none_right_eq_some] at hsweeps
    obtain ⟨hvalid, hqueue⟩ := hsweeps
    obtain rfl := Option.some.inj hqueue
    exact ⟨_, by rw [Op.draws, if_pos hvalid]⟩
  | writeSuccess | removeTask | forceRemoveTask =>
    obtain rfl := Option.some.inj hsweeps
    exact ⟨_, rfl⟩
  | maintain | listTasks =>
    obtain rfl := Option.some.inj hsweeps
    exact ⟨[], (List.append_nil _).symm⟩
  | extendLock | removeLock | appendProgress | readHistory | getTask | getGeneration | getResult | eventCursors
  | setSchedule | consumeSchedule => exact absurd hsweeps (by simp [Op.sweeps])

/-- The sweep of an operation takes what the operation fetches. -/
theorem swept_takes (hs : Sane env.now s) (hsweeps : op.sweeps = some queue) :
    EnginePath env (EngineAction.TakesOnly queue (fetchedMembers (op.draws env (World.begin env s)))) none s none
      (op.swept env s) := by
  obtain ⟨rest, hdraws⟩ := Op.sweep_draws hsweeps (World.begin env s)
  rw [Op.swept_eq, hsweeps, hdraws, fetchedMembers_append]
  have hpath : EnginePath env (EngineAction.TakesOnly queue (fetchedMembers (sweepDraws env queue (World.begin env s)))) none s
      none (sweep env queue s) := @syncAll_takes env queue (World.begin env s) hs
  exact hpath.mono fun act hact => hact.mono (List.subset_append_left _ _)

theorem forceRemoveTask_unknown (hexec : exec env op s = .replied reply s') (queue id : String)
    (hop : op = .forceRemoveTask queue id) (hnone : (op.swept env s).task (queue, id) = none) : s' = op.swept env s := by
  obtain ⟨_, rfl⟩ := exec_replied hexec
  subst hop
  have hnone' : (syncAll env queue (World.begin env s)).store.task (queue, id) = none := hnone
  simp only [Op.run, forceRemoveTask, hnone', if_true]
  rfl

section

variable {c : Call}

/-- An entry that an invocation did not fetch is left by its sweep. -/
theorem sweep_left (hs : Sane c.env.now s) (ht : s.Timed) (hsweeps : c.op.sweeps = some queue) (hkind : m.category ≠ 2)
    (hindexed : m.Indexed queue s) (hfetch : m ∉ fetchedMembers (c.draws s)) : m.Left queue s (c.op.swept c.env s) :=
  (swept_takes hs hsweeps).left hs ht hkind hindexed fun _ hact htaken => absurd (hact.entries htaken) hfetch

/-- An entry that an invocation did not fetch is left by it, unless it ends the attempt that the entry is about. -/
theorem exec_left (hs : Sane c.env.now s) (ht : s.Timed) (hexec : exec c.env c.op s = .replied c.reply s')
    (hsweeps : c.op.sweeps = some queue) (hkind : m.category ≠ 2) (hindexed : m.Indexed queue s)
    (hfetch : m ∉ fetchedMembers (c.draws s)) : m.Left queue s s' ∨ m.EndedBy queue s c := by
  have hswept := swept_path hs c.op
  have hsane := hswept.sane hs
  have hbefore := hswept.since hs (hindexed.given hs hkind)
  have hafter := (exec_effect hs hexec).path.since hsane hbefore.given
  have hleft := sweep_left hs ht hsweeps hkind hindexed hfetch
  rcases hleft with ⟨hindexed', howner⟩ | hlost
  · rcases (exec_effect hs hexec).left hsane (hswept.timed hs ht) (forceRemoveTask_unknown hexec) hkind hindexed' with
      hleft' | ⟨id, leaseToken, rfl, hlease, howner'⟩
    · exact Or.inl (Member.Left.trans (Or.inl ⟨hindexed', howner⟩) (fun _ => hleft') hbefore hafter)
    · exact Or.inr ⟨id, leaseToken, rfl, hlease, howner'⟩
  · exact Or.inl (Or.inr (hlost.of_since hafter))

/-- The attempt at an entry that is due can end under its lease at the deadline only. -/
theorem Member.EndedBy.deadline (h : m.EndedBy queue s c) (hs : Sane c.env.now s) (hsweeps : c.op.sweeps = some queue)
    (hfetch : m ∉ fetchedMembers (c.draws s)) (hdue : m.DueAt c.env.now queue s) : m.score queue s = some c.env.now := by
  obtain ⟨id, leaseToken, rfl, _, howner⟩ := h
  obtain ⟨t, hscore, hle⟩ := hdue
  obtain ⟨l, hl, _⟩ := Option.map_eq_some_iff.mp howner
  obtain ⟨hlock, hlive⟩ := Option.filter_eq_some_iff.mp hl
  obtain ⟨_, _, hactive⟩ := (((swept_path hs c.op).sane hs).views (queue, id)).lease l hlock (of_decide_eq_true hlive)
  have heq := (swept_takes hs hsweeps).active_kept hs hfetch hscore hactive
  rw [hscore]
  exact congrArg some (le_antisymm hle (heq ▸ of_decide_eq_true hlive))

end

/-! ### Every invocation of every run -/

/-- What a budget guarantees of an invocation of a queue: its draws stay within the batch, each with a limit that is not
negative, and what they left is where the next sweep finds it. -/
structure Call.WithinBudget (c : Call) (s s' : Store) : Prop where
  total_le : total Draw.size (c.draws s) ≤ c.env.maintenanceBatchSize
  limit_nonneg : ∀ before d after, c.draws s = before ++ d :: after →
    d.limit = (c.env.maintenanceBatchSize : ℤ) - total Draw.size before ∧ 0 ≤ d.limit ∧ (d.size : ℤ) ≤ d.limit
  holds : ∀ holder, ∀ x ∈ s.retains holder, x ∉ releasedHolds holder (c.draws s) →
    x ∈ s'.retains holder ∧ (ReleaseCalled holder (c.draws s) ∨ s.Noted holder → s'.Noted holder)
  swept : ∀ queue, c.op.sweeps = some queue → ∀ m : Member, m.category ≠ 2 → m.DueAt c.env.now queue s →
    m ∉ fetchedMembers (c.draws s) → m.Left queue s (c.op.swept c.env s)
  left : ∀ queue, c.op.sweeps = some queue → ∀ m : Member, m.category ≠ 2 → m.DueAt c.env.now queue s →
    m ∉ fetchedMembers (c.draws s) →
    m.Left queue s s' ∨ (m.EndedBy queue s c ∧ m.score queue s = some c.env.now)
  processed : ∀ queue, c.op = .maintain queue →
    ∃ snapshot, c.reply = .snapshot snapshot ∧ snapshot.processed = total Draw.size (c.draws s)

theorem maintain_processed {c : Call} (hexec : exec c.env c.op s = .replied c.reply s') (queue : String)
    (hop : c.op = .maintain queue) :
    ∃ snapshot, c.reply = .snapshot snapshot ∧ snapshot.processed = total Draw.size (c.draws s) := by
  have haccounted := @run_accounted c.env (World.begin c.env s) c.op (Int.natCast_nonneg _)
  have hspent := haccounted.spends.eq_sub
  obtain ⟨hreply, _⟩ := exec_replied hexec
  unfold Call.draws
  rw [hop] at hspent hreply ⊢
  refine ⟨_, hreply.symm, ?_⟩
  have hprocessed : (maintenanceSnapshot c.env queue (syncAll c.env queue (World.begin c.env s))).processed =
      c.env.maintenanceBatchSize - (Op.run c.env (World.begin c.env s) (.maintain queue)).2.remaining := rfl
  rw [hprocessed, hspent]
  simp [World.begin]

/-- One maintenance budget bounds every invocation. -/
theorem maintenanceBudget {calls : List Call} {e e' : Engine} {c : Call} (h : engine.Run calls e)
    (hstep : engine.step e c e') : c.WithinBudget e.store e'.store := by
  obtain ⟨hclock, _, hexec⟩ := hstep
  have hs : Sane c.env.now e.store := (run_sane h).mono (Nat.cast_le.mpr hclock)
  have haccounted := @run_accounted c.env (World.begin c.env e.store) c.op (Int.natCast_nonneg _)
  have hindexed : ∀ {queue : String} {m : Member}, m.DueAt c.env.now queue e.store → m.Indexed queue e.store := by
    rintro queue m ⟨t, hscore, _⟩
    rw [Member.Indexed, hscore]
    rfl
  refine ⟨?_, fun before d after hdraws => ?_, fun holder x hx hkept => ?_, fun queue hsweeps m hkind hdue hfetch => ?_,
    fun queue hsweeps m hkind hdue hfetch => ?_, maintain_processed hexec⟩
  · exact Int.ofNat_le.mp haccounted.spends.total_le
  · have hspends := haccounted.spends
    rw [show c.op.draws c.env (World.begin c.env e.store) = before ++ d :: after from hdraws] at hspends
    obtain ⟨hlimit, hroom⟩ := hspends.limit_eq
    exact ⟨hlimit, (Int.natCast_nonneg _).trans hroom, hroom⟩
  · have hheld := haccounted.holds holder x hx hkept
    rwa [(exec_replied hexec).2] at hheld
  · exact sweep_left hs (run_timed h) hsweeps hkind (hindexed hdue) hfetch
  · rcases exec_left hs (run_timed h) hexec hsweeps hkind (hindexed hdue) hfetch with hleft | hended
    · exact Or.inl hleft
    · exact Or.inr ⟨hended, hended.deadline hs hsweeps hfetch hdue⟩

end

/-! ### The deadline itself -/

/-- A batch of one. -/
def Env.single (clock : ℕ) : Env := { Env.at clock with maintenanceBatchSize := 1, batch_pos := by decide }

/-- A delayed task and a lease whose times come together. -/
def deadlineSteps : List (Env × Op) :=
  [(Env.single 0, .createTask { CreateArgs.default "q" "a" with onSuccessPolicy := .markAsSuccess }),
    (Env.single 0, .createTask { CreateArgs.default "q" "d" with delay := some 10 }),
    (Env.single 0, .takeTask "q" "w" (some 10))]

/-- The whole batch goes to one of the two entries. -/
def spendsBatch (_ : List Call) (e : Engine) (_ : Reply) (_ : Store) : Bool :=
  total Draw.size ((Op.maintain "q").draws (Env.single 10) (World.begin (Env.single 10) e.store)) = 1

theorem maintenanceBudget_single : ∃ calls e c e', engine.Run calls e ∧ engine.step e c e' ∧
    total Draw.size (c.draws e.store) = 1 ∧ c.env.maintenanceBatchSize = 1 ∧ c.WithinBudget e.store e'.store := by
  obtain ⟨calls, e, reply, s, hrun, hstep, hspends⟩ := @play_step deadlineSteps (Env.single 10) (.maintain "q") spendsBatch
    (by decide +kernel)
  exact ⟨calls, e, _, _, hrun, hstep, of_decide_eq_true hspends, rfl, maintenanceBudget hrun hstep⟩

/-- The active entry was due, and afterwards it is gone although it was not fetched and the record is still there. -/
def losesActive (_ : List Call) (e : Engine) (_ : Reply) (s : Store) : Bool :=
  decide ((Member.lock "a").score "q" e.store = some 10) &&
    decide (Member.lock "a" ∉ fetchedMembers
      ((Op.writeSuccess "q" "w" "a" "").draws (Env.single 10) (World.begin (Env.single 10) e.store))) &&
    decide ((Member.lock "a").score "q" s = none) && (s.current (e.store.identity "q" "a")).isSome

/-- A due entry that was not fetched leaves its index at the deadline of its lease, and its record stays. -/
theorem deadlineEntry_lost : ∃ calls e c e', engine.Run calls e ∧ engine.step e c e' ∧ c.op.sweeps = some "q" ∧
    ∃ m : Member, m.category ≠ 2 ∧ m.DueAt c.env.now "q" e.store ∧ m ∉ fetchedMembers (c.draws e.store) ∧
      ¬ m.Indexed "q" e'.store ∧ ¬ e.store.Lost e'.store (m.owner "q" e.store) := by
  obtain ⟨calls, e, reply, s, hrun, hstep, hloses⟩ := @play_step deadlineSteps (Env.single 10)
    (.writeSuccess "q" "w" "a" "") losesActive (by decide +kernel)
  simp only [losesActive, Bool.and_eq_true, decide_eq_true_eq] at hloses
  obtain ⟨⟨⟨hscore, hfetch⟩, hgone⟩, hrecord⟩ := hloses
  refine ⟨calls, e, _, _, hrun, hstep, rfl, .lock "a", by decide, ⟨10, hscore, ?_⟩, hfetch, ?_, ?_⟩
  · exact le_of_eq (Nat.cast_ofNat).symm
  · rw [Member.Indexed, hgone]
    exact Bool.false_ne_true
  · rintro ⟨_, hnone⟩
    have hnone' : s.current (e.store.identity "q" "a") = none := hnone
    rw [hnone'] at hrecord
    exact absurd hrecord Bool.false_ne_true

end EffectMQ
