import EffectMQ.Lifecycle.Consistent

/-!
# The engine as steps

The whole store as one transition system: a step of one task's machine, or a move of a retention hold. An
invocation is a path of such steps. While the holds of a holder are being released, the members that were popped
from its set and not yet processed are part of the state between two steps.
-/

namespace EffectMQ

open Redis

/-- The holder whose holds are being released, and its popped members that are still to come. -/
abbrev Busy := Option (TaskIdentity × List TaskIdentity)

inductive EngineAction
  | task (k : TaskKey) (a : TaskAction)
  | create (a : CreateArgs) (replacedTask : Option TaskRecord) (holder : Option TaskIdentity)
  | forget (x : TaskIdentity)
  | start (holder : TaskIdentity)
  | pop (holder : TaskIdentity) (members : List TaskIdentity)
  | drop (holder retained : TaskIdentity) (refiled : Bool)
  | note (holder : TaskIdentity)
  | acquire (holder retained : TaskIdentity)
  | tick

namespace Store

variable (s : Store)

/-- Both halves of a retention relationship. -/
def hold (holder retained : TaskIdentity) : Store :=
  { s with
    retainedBy := Function.update s.retainedBy retained (insert holder (s.retainedBy retained))
    retains := Function.update s.retains holder (insert retained (s.retains holder)) }

/-- The retained half of a relationship goes. -/
def unhold (holder retained : TaskIdentity) : Store :=
  { s with retainedBy := Function.update s.retainedBy retained ((s.retainedBy retained).erase holder) }

/-- A holder is in the release-continuation index of its queue. -/
def Noted (holder : TaskIdentity) : Prop := ((s.continuations holder.queue).score holder).isSome

/-- A live holder with room for one more relationship. -/
structure CanHold (holder : TaskIdentity) : Prop where
  live : validateLiveHolder s holder = none
  room : ∀ r, s.task (holder.queue, holder.id) = some r → (s.retains holder).card < r.maxRelationships

end Store

/-- What the store says about the holds of the task that an action is about. -/
def TaskAction.Admissible (s : Store) (k : TaskKey) : TaskAction → Prop
  | .fail _ _ _ held => s.hasRetentionHolds (s.identity k.1 k.2) = held
  | .succeed _ _ held => s.hasRetentionHolds (s.identity k.1 k.2) = held
  | .expireTask => s.hasRetentionHolds (s.identity k.1 k.2) = false
  | .replace => s.hasRetentionHolds (s.identity k.1 k.2) = false
  | .remove => ∀ r, s.task k = some r → s.hasRetentionHolds ⟨k.1, k.2, r.generation⟩ = false ∧
      (s.retains ⟨k.1, k.2, r.generation⟩ ≠ ∅ → s.Noted ⟨k.1, k.2, r.generation⟩)
  | .expireResult g held => s.hasRetentionHolds ⟨k.1, k.2, g⟩ = held
  | .holdDate g => s.hasRetentionHolds ⟨k.1, k.2, g⟩ = true
  | .create _ _ => False
  | .refile => False
  | .forget _ => False
  | _ => True

/-- The actions that have no business with the lists in which a task that runs or waits can be. -/
def TaskAction.LeavesLine : TaskAction → Prop
  | .dropDate _ | .expireResult _ _ | .expireTerminal _ | .expireDeadLetter _ | .revoke => True
  | _ => False

/-- A settled attempt goes on to release the holds it owns. -/
def TaskAction.busy (s : Store) (k : TaskKey) : TaskAction → Busy
  | .fail _ _ _ _ => some (s.identity k.1 k.2, [])
  | .succeed _ _ _ => some (s.identity k.1 k.2, [])
  | _ => none

inductive EngineStep (env : Env) : Busy → Store → EngineAction → Busy → Store → Prop
  | task {s s' : Store} {k : TaskKey} {a : TaskAction} (henabled : a.Enabled env (s.view k))
      (hadmissible : a.Admissible s k) (hlocal : Local k (fun v => a.apply env k.2 v) s s')
      (hline : a.LeavesLine → (s'.lists k.1).wait = (s.lists k.1).wait) :
      EngineStep env none s (.task k a) (a.busy s k) s'
  | create {s s' : Store} {a : CreateArgs} {replacedTask : Option TaskRecord}
      (hfresh : s.task (a.queue, a.id) = none)
      (hlocal : Local (a.queue, a.id) (fun v => (TaskAction.create a replacedTask).apply env a.id v) s s') :
      EngineStep env none s (.create a replacedTask none) none s'
  | createHeld {s s' : Store} {a : CreateArgs} {replacedTask : Option TaskRecord} {holder : TaskIdentity}
      (hfresh : s.task (a.queue, a.id) = none) (hholder : s.CanHold holder) (hroom : 0 < natural a.maxRelationships)
      (hlocal : Local (a.queue, a.id) (fun v => (TaskAction.create a replacedTask).apply env a.id v)
        (s.hold holder ⟨a.queue, a.id, s.generations (a.queue, a.id) + 1⟩) s') :
      EngineStep env none s (.create a replacedTask (some holder)) none s'
  | forget {s s' : Store} {x : TaskIdentity}
      (henabled : (TaskAction.forget x.generation).Enabled env (s.view (x.queue, x.id)))
      (hnoted : s.retains x ≠ ∅ → s.Noted x)
      (hlocal : Local (x.queue, x.id) (fun v => (TaskAction.forget x.generation).apply env x.id v)
        { s with retainedBy := Function.update s.retainedBy x ∅ } s') :
      EngineStep env none s (.forget x) none s'
  | start {s : Store} {holder : TaskIdentity} : EngineStep env none s (.start holder) (some (holder, [])) s
  | pop {s : Store} {holder : TaskIdentity} {members : List TaskIdentity} (hnodup : members.Nodup)
      (hsubset : ∀ x ∈ members, x ∈ s.retains holder) :
      EngineStep env (some (holder, [])) s (.pop holder members) (some (holder, members))
        { s with retains := Function.update s.retains holder (s.retains holder \ members.toFinset) }
  | dropKept {s : Store} {holder x : TaskIdentity} {rest : List TaskIdentity}
      (hkept : ∀ r, s.current x = some r → r.outcome = none ∨ (s.unhold holder x).hasRetentionHolds x = true) :
      EngineStep env (some (holder, x :: rest)) s (.drop holder x false) (some (holder, rest)) (s.unhold holder x)
  | dropRefiled {s s' : Store} {holder x : TaskIdentity} {rest : List TaskIdentity} {r : TaskRecord}
      (hcurrent : s.current x = some r) (hsettled : r.outcome.isSome)
      (hheld : (s.unhold holder x).hasRetentionHolds x = false)
      (hlocal : Local (x.queue, x.id) (fun v => TaskAction.refile.apply env x.id v) (s.unhold holder x) s') :
      EngineStep env (some (holder, x :: rest)) s (.drop holder x true) (some (holder, rest)) s'
  | note {s : Store} {holder : TaskIdentity} :
      EngineStep env (some (holder, [])) s (.note holder) none (noteContinuation env holder s)
  | acquire {s : Store} {holder x : TaskIdentity} {r : TaskRecord} (hholder : s.CanHold holder)
      (hcurrent : s.current x = some r) (hroom : (s.retainedBy x).card < r.maxRelationships) :
      EngineStep env none s (.acquire holder x) none (s.hold holder x)
  | tick {s : Store} (cursor : String → ℕ) (schedule : String × String → Option ℤ) :
      EngineStep env none s .tick none { s with maintenanceCursor := cursor, schedule := schedule }

/-- What an engine action does at one id. -/
def EngineAction.on (k : TaskKey) : EngineAction → Option TaskAction
  | .task k' a => if k' = k then some a else none
  | .create a replacedTask _ => if (a.queue, a.id) = k then some (.create a replacedTask) else none
  | .forget x => if (x.queue, x.id) = k then some (.forget x.generation) else none
  | .drop _ x true => if (x.queue, x.id) = k then some .refile else none
  | _ => none

variable {env : Env} {b b' : Busy} {s s' : Store} {act : EngineAction}

/-- A step of the engine is, at every id, a step of the task machine or nothing. -/
theorem EngineStep.view (h : EngineStep env b s act b' s') (k : TaskKey) :
    (act.on k = none ∧ s'.view k = s.view k) ∨
      ∃ a, act.on k = some a ∧ TaskStep env k.2 (s.view k) a (s'.view k) := by
  cases h with
  | task henabled hadmissible hlocal hline =>
    next k' a =>
    by_cases hk : k' = k
    · subst hk
      exact Or.inr ⟨a, if_pos rfl, henabled, hlocal.view_self⟩
    · exact Or.inl ⟨if_neg hk, hlocal.view_of_ne (Ne.symm hk)⟩
  | create hfresh hlocal =>
    next a replacedTask =>
    by_cases hk : (a.queue, a.id) = k
    · subst hk
      exact Or.inr ⟨_, if_pos rfl, hfresh, hlocal.view_self⟩
    · exact Or.inl ⟨if_neg hk, hlocal.view_of_ne (Ne.symm hk)⟩
  | createHeld hfresh hholder hroom hlocal =>
    next a replacedTask holder =>
    by_cases hk : (a.queue, a.id) = k
    · subst hk
      exact Or.inr ⟨_, if_pos rfl, hfresh, hlocal.view_self⟩
    · exact Or.inl ⟨if_neg hk, hlocal.view_of_ne (Ne.symm hk)⟩
  | forget henabled hnoted hlocal =>
    next x =>
    by_cases hk : (x.queue, x.id) = k
    · subst hk
      exact Or.inr ⟨_, if_pos rfl, henabled, hlocal.view_self⟩
    · exact Or.inl ⟨if_neg hk, hlocal.view_of_ne (Ne.symm hk)⟩
  | dropRefiled hcurrent hsettled hheld hlocal =>
    next holder x rest r =>
    by_cases hk : (x.queue, x.id) = k
    · subst hk
      exact Or.inr ⟨_, if_pos rfl, ⟨r, (current_eq_some_iff.mp hcurrent).1, hsettled⟩, hlocal.view_self⟩
    · exact Or.inl ⟨if_neg hk, hlocal.view_of_ne (Ne.symm hk)⟩
  | start | pop | dropKept | note | acquire | tick => exact Or.inl ⟨rfl, rfl⟩

theorem EngineAction.on_task_eq {k k' : TaskKey} {a a' : TaskAction} (hon : (EngineAction.task k' a').on k = some a) :
    k' = k ∧ a' = a := by
  simp only [EngineAction.on] at hon
  split at hon
  · next hk => exact ⟨hk, Option.some.inj hon⟩
  · exact absurd hon (by simp)

/-- The engine actions that a task sees. -/
theorem EngineAction.on_cases {k : TaskKey} {a : TaskAction} (hon : act.on k = some a) :
    act = .task k a ∨
      (∃ args replacedTask holder, act = .create args replacedTask holder ∧ (args.queue, args.id) = k ∧
        a = .create args replacedTask) ∨
      (∃ x, act = .forget x ∧ (x.queue, x.id) = k ∧ a = .forget x.generation) ∨
      ∃ holder x, act = .drop holder x true ∧ (x.queue, x.id) = k ∧ a = .refile := by
  cases act with
  | task k' a' =>
    obtain ⟨rfl, rfl⟩ := EngineAction.on_task_eq hon
    exact Or.inl rfl
  | create args replacedTask holder =>
    simp only [EngineAction.on, Option.ite_none_right_eq_some] at hon
    exact Or.inr (Or.inl ⟨args, replacedTask, holder, rfl, hon.1, (Option.some.inj hon.2).symm⟩)
  | forget x =>
    simp only [EngineAction.on, Option.ite_none_right_eq_some] at hon
    exact Or.inr (Or.inr (Or.inl ⟨x, rfl, hon.1, (Option.some.inj hon.2).symm⟩))
  | drop holder x refiled =>
    cases refiled with
    | false => exact absurd hon (by simp [EngineAction.on])
    | true =>
      simp only [EngineAction.on, Option.ite_none_right_eq_some] at hon
      exact Or.inr (Or.inr (Or.inr ⟨holder, x, rfl, hon.1, (Option.some.inj hon.2).symm⟩))
  | start | pop | note | acquire | tick => exact absurd hon (by simp [EngineAction.on])

theorem EngineStep.view_task {k' : TaskKey} {a : TaskAction}
    (h : EngineStep env b s (.task k' a) b' s') :
    TaskStep env k'.2 (s.view k') a (s'.view k') ∧ ∀ k, k ≠ k' → s'.view k = s.view k := by
  constructor
  · rcases h.view k' with ⟨hon, _⟩ | ⟨a', hon, hstep⟩
    · exact absurd hon (by simp [EngineAction.on])
    · exact (EngineAction.on_task_eq hon).2 ▸ hstep
  · intro k hk
    rcases h.view k with ⟨_, hview⟩ | ⟨a', hon, _⟩
    · exact hview
    · exact absurd (EngineAction.on_task_eq hon).1 (Ne.symm hk)

theorem EngineStep.homed (h : EngineStep env b s act b' s') (hs : s.Homed) : s'.Homed := by
  cases h with
  | task henabled hadmissible hlocal hline => exact hlocal.homed hs
  | create hfresh hlocal => exact hlocal.homed hs
  | createHeld hfresh hholder hroom hlocal => exact hlocal.homed hs
  | forget henabled hnoted hlocal => exact hlocal.homed hs
  | dropRefiled hcurrent hsettled hheld hlocal => exact hlocal.homed hs
  | start | pop | dropKept | note | acquire | tick => exact hs

/-- Every view is consistent and the expiry indexes are. -/
structure Sane (now : ℚ) (s : Store) : Prop where
  views : ∀ k, (s.view k).Consistent now
  homed : s.Homed

theorem EngineStep.sane (h : EngineStep env b s act b' s') (hs : Sane env.now s) : Sane env.now s' where
  views k := by
    rcases h.view k with ⟨_, hview⟩ | ⟨a, _, hstep⟩
    · rw [hview]
      exact hs.views k
    · exact hstep.consistent (hs.views k)
  homed := h.homed hs.homed

theorem Sane.mono {now now' : ℚ} (hs : Sane now s) (hle : now ≤ now') : Sane now' s :=
  ⟨fun k => (hs.views k).mono hle, hs.homed⟩

theorem Sane.listed {now : ℚ} (hs : Sane now s) (queue id : String) : s.Listed queue id :=
  view_listed_iff.mp (hs.views (queue, id)).listed

/-! ### Paths -/

/-- A sequence of engine steps with actions of a kind. -/
inductive EnginePath (env : Env) (P : EngineAction → Prop) (b : Busy) (s : Store) : Busy → Store → Prop
  | refl : EnginePath env P b s b s
  | tail {b' b'' : Busy} {s' s'' : Store} {act : EngineAction} (h : EnginePath env P b s b' s')
      (hstep : EngineStep env b' s' act b'' s'') (hact : P act) : EnginePath env P b s b'' s''

namespace EnginePath

variable {P Q : EngineAction → Prop} {b'' : Busy} {s'' : Store}

theorem single (h : EngineStep env b s act b' s') (hact : P act) : EnginePath env P b s b' s' :=
  refl.tail h hact

theorem trans (h : EnginePath env P b s b' s') (h' : EnginePath env P b' s' b'' s'') :
    EnginePath env P b s b'' s'' := by
  induction h' with
  | refl => exact h
  | tail _ hstep hact ih => exact ih.tail hstep hact

theorem mono (h : EnginePath env P b s b' s') (hPQ : ∀ act, P act → Q act) : EnginePath env Q b s b' s' := by
  induction h with
  | refl => exact refl
  | tail _ hstep hact ih => exact ih.tail hstep (hPQ _ hact)

theorem sane (h : EnginePath env P b s b' s') (hs : Sane env.now s) : Sane env.now s' := by
  induction h with
  | refl => exact hs
  | tail _ hstep _ ih => exact hstep.sane ih

/-- What every step of a kind preserves, a path preserves. -/
theorem preserves {I : Busy → Store → Prop} (h : EnginePath env P b s b' s') (hs : Sane env.now s) (hI : I b s)
    (hstep : ∀ b s act b' s', Sane env.now s → I b s → EngineStep env b s act b' s' → P act → I b' s') : I b' s' := by
  induction h with
  | refl => exact hI
  | tail h' hstep' hact ih => exact hstep _ _ _ _ _ (h'.sane hs) ih hstep' hact

end EnginePath

end EffectMQ
