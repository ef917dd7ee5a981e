import EffectMQ.Lifecycle.Archive
import EffectMQ.Lifecycle.Line

/-!
# The notes of a step

What each action appends to the history of the stored generation: the data of the entries and the attempt they
carry. Every event leaves its entry, and a report of progress leaves one without an event. The entries come from the
bodies of the events, so that the two accounts of a step cannot differ.
-/

namespace EffectMQ

open Redis

/-- The data of a history entry and the attempt that it names. -/
abbrev Note := HistoryData × ℕ

def HistoryEntry.note (e : HistoryEntry) : Note := (e.data, e.attempt)

/-- The kind under which the history keeps a failure: cancellations have one of their own. -/
def historyKind (error : LuaValue) (kind : FailureKind) : FailureKind :=
  if error.errorTag = some canceledTag then .canceled else kind

/-- The history entry that an event leaves. -/
def EventBody.note (attempt : ℕ) : EventBody → Note
  | .failed error policy kind _ terminal retryAt =>
    (.failed policy (historyKind error kind) terminal (retryAt.map cjsonNumber), attempt)
  | body => (lifecycleData body none, attempt)

/-- The entries that an action appends to the history of a stored record. -/
def TaskAction.notes (env : Env) (r : TaskRecord) : TaskAction → List Note
  | .lease leaseToken lockTimeout =>
    ((TaskAction.lease leaseToken lockTimeout).bodies env r).map (EventBody.note (r.attempt + 1))
  | .progress _ data => [(.progress data, r.attempt)]
  | a => (a.bodies env r).map (EventBody.note r.attempt)

/-- A stream after appends, up to the entries that its limit no longer keeps. -/
def Inscribed (p : HistoryFields × List (StreamId × HistoryEntry)) (notes : List Note)
    (q : HistoryFields × List (StreamId × HistoryEntry)) : Prop :=
  q.1.enabled = p.1.enabled ∧ q.1.maxEntries = p.1.maxEntries ∧
    ∃ added, newest p.1.maxEntries q.2 = newest p.1.maxEntries (p.2 ++ added) ∧
      (added.map fun e => e.2.note) = if p.1.enabled = true then notes else []

namespace Inscribed

variable {p q q' : HistoryFields × List (StreamId × HistoryEntry)} {notes notes' : List Note}

theorem refl (p : HistoryFields × List (StreamId × HistoryEntry)) : Inscribed p [] p :=
  ⟨rfl, rfl, [], by rw [List.append_nil], by split <;> rfl⟩

theorem trans (h : Inscribed p notes q) (h' : Inscribed q notes' q') : Inscribed p (notes ++ notes') q' := by
  obtain ⟨henabled, hlimit, added, hstream, hnotes⟩ := h
  obtain ⟨henabled', hlimit', added', hstream', hnotes'⟩ := h'
  rw [hlimit] at hstream'
  rw [henabled] at hnotes'
  refine ⟨henabled'.trans henabled, hlimit'.trans hlimit, added ++ added', ?_, ?_⟩
  · rw [hstream', ← newest_append, hstream, newest_append, List.append_assoc]
  · rw [List.map_append, hnotes, hnotes']
    split <;> rfl

/-- Without a limit nothing is lost. -/
theorem unlimited (h : Inscribed p notes q) (hlimit : p.1.maxEntries = 0) (henabled : p.1.enabled = true) :
    q.2.map (fun e => e.2.note) = p.2.map (fun e => e.2.note) ++ notes := by
  obtain ⟨_, _, added, hstream, hnotes⟩ := h
  rw [henabled] at hnotes
  simp only [newest, hlimit, ↓reduceIte] at hstream hnotes
  rw [hstream, List.map_append, hnotes]

end Inscribed

theorem newest_newest {α : Type} (limit : ℕ) (l : List α) : newest limit (newest limit l) = newest limit l := by
  have h := newest_append limit l []
  rwa [List.append_nil, List.append_nil] at h

theorem inscribed_pushed (env : Env) (id : String) (r : TaskRecord) (stream : List (StreamId × HistoryEntry))
    (data : HistoryData) (attempt : Option ℕ) :
    Inscribed (r.history, stream) [(data, attempt.getD r.attempt)] (r.pushed env id stream data attempt) := by
  have hnote : (historyEntry env id r data attempt).note = (data, attempt.getD r.attempt) := rfl
  unfold TaskRecord.pushed Inscribed
  dsimp only
  split
  · next hoff =>
    refine ⟨rfl, rfl, [], by rw [List.append_nil], ?_⟩
    rw [hoff]
    rfl
  · next hon =>
    rw [Bool.not_eq_false] at hon
    have hadded : ([(StreamId.next env.clock (lastId stream), historyEntry env id r data attempt)].map
        fun e => e.2.note) = [(data, attempt.getD r.attempt)] := congrArg (fun note => [note]) hnote
    split
    · next hfull =>
      refine ⟨rfl, rfl, _, ?_, hadded⟩
      generalize stream ++ [(StreamId.next env.clock (lastId stream), historyEntry env id r data attempt)] = entries
      have hdrop : entries.drop (entries.length - r.history.maxEntries) = newest r.history.maxEntries entries := by
        rw [newest, if_neg hfull.1.ne']
      rw [hdrop, newest_newest]
    · exact ⟨rfl, rfl, _, rfl, hadded⟩

/-- A stored record and its history after appends. -/
structure TaskView.Inscribes (v : TaskView) (r : TaskRecord) (notes : List Note) (v' : TaskView) (r' : TaskRecord) :
    Prop where
  before : v.record = some r
  after : v'.record = some r'
  generation : r'.generation = r.generation
  history : Inscribed (r.history, v.history r.generation) notes (r'.history, v'.history r.generation)

namespace TaskView.Inscribes

variable (env : Env) (id : String) {v v' v'' : TaskView} {r r' r'' : TaskRecord} {notes notes' : List Note}

theorem trans (h : v.Inscribes r notes v' r') (h' : v'.Inscribes r' notes' v'' r'') :
    v.Inscribes r (notes ++ notes') v'' r'' where
  before := h.before
  after := h'.after
  generation := h'.generation.trans h.generation
  history := h.history.trans (h.generation ▸ h'.history)

/-- A change that touches no history. -/
theorem of_eq (h : v.record = some r) (h' : v'.record = some r') (hgeneration : r'.generation = r.generation)
    (hfields : r'.history = r.history) (hhistory : v'.history r.generation = v.history r.generation) :
    v.Inscribes r [] v' r' where
  before := h
  after := h'
  generation := hgeneration
  history := by
    rw [hfields, hhistory]
    exact Inscribed.refl _

theorem push (h : v.record = some r) (data : HistoryData) (attempt : Option ℕ) :
    ∃ history, v.Inscribes r [(data, attempt.getD r.attempt)] (v.push env id data attempt) (r.withHistory history) := by
  refine ⟨(r.pushed env id (v.history r.generation) data attempt).1, h, ?_, rfl, ?_⟩
  · simp only [TaskView.push, h, Option.map_some]
    rfl
  · simp only [TaskView.push, h, Function.update_self]
    exact inscribed_pushed env id r _ data attempt

theorem publish (h : v.record = some r) (body : EventBody) (failureKind : Option FailureKind) (attempt : Option ℕ) :
    ∃ history, v.Inscribes r [(lifecycleData body failureKind, attempt.getD r.attempt)]
      (v.publish env id body failureKind attempt) (r.withHistory history) := by
  obtain ⟨history, hpush⟩ := push env id h (lifecycleData body failureKind) attempt
  exact ⟨history, h, hpush.after, rfl, hpush.history⟩

theorem move (h : v.record = some r) (list : Option TaskList) (readyAt : ℚ) (attempt : Option ℕ) :
    ∃ history, v.Inscribes r ((r.moves list).map (EventBody.note (attempt.getD r.attempt)))
      (v.move env id list readyAt attempt) ((r.listed list).withHistory history) := by
  have hrelist : (v.relist env list readyAt).record = some (r.listed list) := by
    simp [relist, h, TaskRecord.listed]
  have hplaced : v.Inscribes r [] (v.relist env list readyAt) (r.listed list) := of_eq h hrelist rfl rfl rfl
  unfold TaskView.move TaskRecord.moves
  rw [place_of_record h]
  split
  · exact ⟨r.history, hplaced⟩
  · have hstate : ∀ l, (r.listed list).state l = r.state l := fun l => by cases l <;> rfl
    obtain ⟨history, hpublish⟩ := publish env id hrelist
      ((v.relist env list readyAt).moved r.place list) none attempt
    refine ⟨history, ?_⟩
    rw [moved_of_record hrelist, hstate, hstate] at hpublish ⊢
    exact hplaced.trans hpublish

theorem recordFailure (h : v.record = some r) (error : LuaValue) (retryAt : Option ℚ) (kind : FailureKind) :
    ∃ history, v.Inscribes r
      [(.failed r.onFailurePolicy (historyKind error kind) (!willRetry error retryAt) (retryAt.map cjsonNumber),
        r.attempt)]
      (v.recordFailure env id error retryAt kind) ((r.failed env error retryAt kind).withHistory history) := by
  have hrecord := record_appendTaskError env h error retryAt kind
  have hfailed : v.Inscribes r [] ((v.countFailure kind).appendTaskError env error retryAt)
      (r.failed env error retryAt kind) := by
    refine of_eq h hrecord (TaskRecord.generation_failed env r error retryAt kind) ?_ rfl
    unfold TaskRecord.failed
    split <;> rfl
  obtain ⟨history, hpublish⟩ := publish env id hrecord
    (((v.countFailure kind).appendTaskError env error retryAt).failedEvent error retryAt kind)
    (some (historyKind error kind)) none
  have hnote : lifecycleData (((v.countFailure kind).appendTaskError env error retryAt).failedEvent error retryAt kind)
      (some (historyKind error kind)) =
      .failed r.onFailurePolicy (historyKind error kind) (!willRetry error retryAt) (retryAt.map cjsonNumber) := by
    simp [failedEvent, hrecord, lifecycleData]
  rw [hnote, Option.getD_none, TaskRecord.attempt_failed] at hpublish
  exact ⟨history, hfailed.trans hpublish⟩

theorem succeed (h : v.record = some r) (result : String) :
    ∃ history, v.Inscribes r [(.completed r.onSuccessPolicy, r.attempt)] (v.succeed env id result)
      ((r.succeeded env result).withHistory history) := by
  have hset : (v.unlock.set env fun r => { r with success := some result, outcome := some .success }).record =
      some (r.succeeded env result) := by
    simp [set, modify, unlock, h, TaskRecord.succeeded]
  obtain ⟨history, hpublish⟩ := publish env id hset (.completed result (((v.unlock.set env
    fun r => { r with success := some result, outcome := some .success }).record.map TaskRecord.onSuccessPolicy).getD
      .delete)) none none
  have hnote : ((v.unlock.set env fun r => { r with success := some result, outcome := some .success }).record.map
      TaskRecord.onSuccessPolicy).getD .delete = r.onSuccessPolicy := by rw [hset]; rfl
  rw [hnote] at hpublish
  refine ⟨history, (of_eq h hset rfl rfl rfl).trans ?_⟩
  rw [TaskView.succeed, hnote]
  exact hpublish

/-- A completion policy that leaves the record. -/
theorem applyPolicy {outcome : Outcome} (h : v.record = some r) (ho : r.outcome = some outcome) {held : Bool}
    (hkept : (v.applyPolicy env id held).record ≠ none) :
    ∃ history, v.Inscribes r ((r.moves (r.policy outcome).list).map (EventBody.note r.attempt))
      (v.applyPolicy env id held) ((r.listed (r.policy outcome).list).withHistory history) := by
  rw [applyPolicy_of_settled env h ho] at hkept ⊢
  split at hkept
  · exact absurd rfl hkept
  · next hleft =>
    rw [if_neg hleft]
    exact move env id h _ 0 none

theorem settle {outcome : Outcome} (h : v.record = some r) (ho : r.outcome = some outcome) {terminalFailure : LuaValue}
    {held : Bool} (hkept : (v.settle env id terminalFailure held).record ≠ none) :
    ∃ history, v.Inscribes r ((r.moves (r.policy outcome).list).map (EventBody.note r.attempt))
      (v.settle env id terminalFailure held) ((r.listed (r.policy outcome).list).withHistory history) := by
  have hrecord := ((record_retention env).trans (record_persist env terminalFailure)).trans h
  have hdates : v.Inscribes r [] ((v.persist env terminalFailure).retention env) r := by
    refine of_eq h hrecord rfl rfl ?_
    unfold retention persist
    split <;> split <;> rfl
  obtain ⟨history, hpolicy⟩ := applyPolicy env id hrecord ho hkept
  exact ⟨history, hdates.trans hpolicy⟩

end TaskView.Inscribes

variable {env : Env} {id : String} {v v' : TaskView} {r r' : TaskRecord} {a : TaskAction}

theorem note_moves (r₁ : TaskRecord) (list : Option TaskList) {n m : ℕ} (h : n = m) :
    (r₁.moves list).map (EventBody.note n) = (r₁.moves list).map (EventBody.note m) := by rw [h]

/-- The history of a record that a step leaves. -/
theorem TaskStep.inscribes (hstep : TaskStep env id v a v') (hv : v.Consistent env.now) (h : v.record = some r)
    (hkept : v'.record ≠ none) : ∃ r', v.Inscribes r (a.notes env r) v' r' := by
  obtain ⟨henabled, rfl⟩ := hstep
  have hsame : a.notes env r = [] → (a.apply env id v).record = some r → (a.apply env id v).history = v.history →
      ∃ r', v.Inscribes r (a.notes env r) (a.apply env id v) r' := fun hnotes hrecord hhistory =>
    ⟨r, hnotes ▸ .of_eq h hrecord rfl rfl (congrFun hhistory _)⟩
  cases a with
  | create => exact absurd (h.symm.trans henabled) (by simp)
  | promote =>
    obtain ⟨history, hmove⟩ := TaskView.Inscribes.move env id h (some .wait) 0 none
    exact ⟨_, hmove⟩
  | lease leaseToken lockTimeout =>
    obtain ⟨history, hmove⟩ := TaskView.Inscribes.move env id h (some .active) (env.now + lockTimeout)
      (some ((v.record.map TaskRecord.attempt).getD 0 + 1))
    have hattempt : (some ((v.record.map TaskRecord.attempt).getD 0 + 1)).getD r.attempt = r.attempt + 1 := by
      rw [h]
      rfl
    rw [hattempt] at hmove
    have hcount : TaskView.Inscribes _ _ [] (TaskAction.apply env id v (.lease leaseToken lockTimeout)) _ :=
      .of_eq hmove.after (congrArg (Option.map _) hmove.after) rfl rfl rfl
    have htotal := hmove.trans hcount
    rw [List.append_nil] at htotal
    exact ⟨_, htotal⟩
  | renew leaseToken lockTimeout =>
    have hlocked : { v with lock := some (Lock.mk leaseToken (env.now + lockTimeout)) }.record = some r := h
    obtain ⟨history, hmove⟩ := TaskView.Inscribes.move env id hlocked (some .active)
      (env.now + lockTimeout) none
    exact ⟨_, h, hmove.after, hmove.generation, hmove.history⟩
  | release leaseToken =>
    have hunlocked : v.unlock.record = some r := h
    obtain ⟨history, hmove⟩ := TaskView.Inscribes.move env id hunlocked (some .wait) 0 none
    exact ⟨_, h, hmove.after, hmove.generation, hmove.history⟩
  | retry cause error retryAt =>
    have hretry := henabled.2.2
    obtain ⟨history, hfailed⟩ := TaskView.Inscribes.recordFailure env id h error (retryTime retryAt)
      cause.kind
    have hnotes : ∀ list, (((r.failed env error (retryTime retryAt) cause.kind).withHistory history).moves list).map
        (EventBody.note ((none : Option ℕ).getD
          ((r.failed env error (retryTime retryAt) cause.kind).withHistory history).attempt)) =
        ((r.failed env error (retryTime retryAt) cause.kind).moves list).map (EventBody.note r.attempt) := fun list =>
      note_moves _ list (TaskRecord.attempt_failed env r error (retryTime retryAt) cause.kind)
    have hmove := fun list readyAt => TaskView.Inscribes.move env id hfailed.after list readyAt none
    simp only [TaskAction.apply, TaskAction.notes, TaskAction.bodies, TaskRecord.retryList, List.map_cons]
    by_cases hlater : env.now < retryAt
    · obtain ⟨history', hlist⟩ := hmove (some .scheduled) retryAt
      rw [hnotes] at hlist
      simp only [hlater, ↓reduceIte]
      have htotal := hfailed.trans hlist
      rw [hretry] at htotal
      exact ⟨_, htotal⟩
    · obtain ⟨history', hlist⟩ := hmove (some .wait) 0
      rw [hnotes] at hlist
      simp only [hlater, ↓reduceIte]
      have htotal := hfailed.trans hlist
      rw [hretry] at htotal
      exact ⟨_, htotal⟩
  | fail cause error retryAt held =>
    have hterminal := henabled.2.2
    obtain ⟨history, hfailed⟩ := TaskView.Inscribes.recordFailure env id h error (retryTime retryAt)
      cause.kind
    have hset : ((TaskAction.failed env id cause error retryAt v).set env
        fun r => { r with outcome := some .failure }).record =
        some ((r.exhausted env error (retryTime retryAt) cause.kind).withHistory history) :=
      congrArg (Option.map _) hfailed.after
    have hexhausted : v.Inscribes r _ ((TaskAction.failed env id cause error retryAt v).set env
        fun r => { r with outcome := some .failure }) _ := hfailed.trans (.of_eq hfailed.after hset rfl rfl rfl)
    obtain ⟨history', hsettle⟩ := TaskView.Inscribes.settle env id hset rfl hkept
    have htotal := hexhausted.trans hsettle
    have hpolicy : ((r.exhausted env error (retryTime retryAt) cause.kind).withHistory history).policy .failure =
        r.onFailurePolicy := TaskRecord.onFailurePolicy_failed env r error (retryTime retryAt) cause.kind
    have hattempt : ((r.exhausted env error (retryTime retryAt) cause.kind).withHistory history).attempt =
        r.attempt := TaskRecord.attempt_failed env r error (retryTime retryAt) cause.kind
    rw [hpolicy, hattempt, hterminal, List.append_nil] at htotal
    exact ⟨_, htotal⟩
  | succeed leaseToken result held =>
    obtain ⟨history, hsucceed⟩ := TaskView.Inscribes.succeed env id h result
    obtain ⟨history', hsettle⟩ := TaskView.Inscribes.settle env id hsucceed.after rfl hkept
    exact ⟨_, hsucceed.trans hsettle⟩
  | progress leaseToken data =>
    obtain ⟨history, hpush⟩ := TaskView.Inscribes.push env id h (.progress data) none
    exact ⟨_, hpush⟩
  | refile =>
    obtain ⟨r', hsettled⟩ := henabled
    obtain rfl := Option.some.inj (h.symm.trans hsettled.record)
    obtain ⟨outcome, ho⟩ := Option.isSome_iff_exists.mp hsettled.outcome
    have hnotes : TaskAction.refile.notes env r = (r.moves (r.policy outcome).list).map (EventBody.note r.attempt) := by
      simp [TaskAction.notes, TaskAction.bodies, ho]
    obtain ⟨history, hpolicy⟩ := TaskView.Inscribes.applyPolicy env id h ho hkept
    exact ⟨_, hnotes ▸ hpolicy⟩
  | replace | expireTask | remove | forget => exact absurd rfl hkept
  | dropDate | holdDate | expireDeadLetter | revoke => exact hsame rfl h rfl
  | expireResult g held =>
    refine hsame rfl ?_ ?_ <;> simp only [TaskAction.apply, TaskView.expireResult] <;> split <;> first | exact h | rfl
  | expireTerminal g =>
    have hunindexed := TaskView.unindexed_of_listed hv.listed h
    simp only [TaskAction.apply, TaskView.expireTerminal, h, Option.any_some] at hkept ⊢
    by_cases hg : r.generation = g
    · simp only [hg, decide_true, ↓reduceIte]
      refine ⟨r.unindexed, .of_eq h (by simp [TaskView.setDates, TaskView.unindexTerminal, h, hunindexed]) ?_ ?_ rfl⟩
      all_goals
        unfold TaskRecord.unindexed
        split <;> rfl
    · simp only [hg, decide_false, Bool.false_eq_true, ↓reduceIte]
      exact ⟨r, .of_eq h h rfl rfl rfl⟩

/-! ### After a settlement -/

def EventBody.IsMove : EventBody → Prop
  | .moved _ _ _ _ _ _ _ => True
  | _ => False

def HistoryData.IsMove : HistoryData → Prop
  | .moved _ _ _ _ => True
  | _ => False

theorem EventBody.IsMove.note {body : EventBody} (h : body.IsMove) (attempt : ℕ) : (body.note attempt).1.IsMove := by
  cases body with
  | moved => exact trivial
  | created | updated | completed | failed => exact absurd h (by simp [EventBody.IsMove])

theorem isMove_of_moves {list : Option TaskList} {body : EventBody} (h : body ∈ r.moves list) : body.IsMove := by
  unfold TaskRecord.moves at h
  split at h
  · exact absurd h List.not_mem_nil
  · obtain rfl := List.mem_singleton.mp h
    exact trivial

theorem isMove_of_refile {body : EventBody} (h : body ∈ TaskAction.refile.bodies env r) : body.IsMove := by
  unfold TaskAction.bodies at h
  cases ho : r.outcome with
  | none =>
    rw [ho] at h
    exact absurd h List.not_mem_nil
  | some outcome =>
    rw [ho] at h
    exact isMove_of_moves h

/-- A report with the move after it can be read off from a stream that keeps two entries. -/
theorem Inscribed.report_unique {p q : HistoryFields × List (StreamId × HistoryEntry)} {note note' move : Note}
    {rest : List Note} (h : Inscribed p [note, move] q) (h' : Inscribed p (note' :: rest) q)
    (henabled : p.1.enabled = true) (hlimit : p.1.maxEntries ≠ 1) (hnote : ¬ note.1.IsMove) (hnote' : ¬ note'.1.IsMove)
    (hmove : move.1.IsMove) (hrest : ∀ n ∈ rest, n.1.IsMove) : note' = note := by
  obtain ⟨_, _, added, hstream, hadded⟩ := h
  obtain ⟨_, _, added', hstream', hadded'⟩ := h'
  rw [if_pos henabled] at hadded hadded'
  have hlength : added.length = 2 := by simpa using congrArg List.length hadded
  have hkept : added <:+ p.2 ++ added' := by
    have hlast : added <:+ newest p.1.maxEntries (p.2 ++ added) := suffix_newest (by omega)
    refine hlast.trans ?_
    rw [← hstream, hstream']
    exact newest_suffix _ _
  have htwo := hkept.map fun e => e.2.note
  rw [hadded, List.map_append, hadded'] at htwo
  -- both end the same list: one of them is the end of the other
  rcases List.suffix_or_suffix_of_suffix htwo (List.suffix_append _ (note' :: rest)) with hend | hend
  · rcases List.suffix_cons_iff.mp hend with heq | hsuffix
    · exact (List.cons.inj heq).1.symm
    · exact absurd (hrest note (hsuffix.subset List.mem_cons_self)) hnote
  · rcases List.suffix_cons_iff.mp hend with heq | hsuffix
    · exact (List.cons.inj heq).1
    · obtain rfl := List.mem_singleton.mp (hsuffix.subset (List.mem_cons_self : note' ∈ note' :: rest))
      exact absurd hmove hnote'

/-- A stream that keeps no two entries tells nothing of a report that a move followed. -/
theorem Inscribed.report_lost {p q : HistoryFields × List (StreamId × HistoryEntry)} {note move : Note}
    (h : Inscribed p [note, move] q) (hlost : p.1.enabled = false ∨ p.1.maxEntries = 1) (note' : Note) :
    Inscribed p [note', move] q := by
  obtain ⟨henabled, hmax, added, hstream, hadded⟩ := h
  refine ⟨henabled, hmax, ?_⟩
  cases hon : p.1.enabled with
  | false =>
    rw [hon] at hadded
    exact ⟨added, hstream, hadded⟩
  | true =>
    have hlimit : p.1.maxEntries = 1 := hlost.resolve_left (by simp [hon])
    rw [hon, if_pos rfl] at hadded
    obtain ⟨first, tail, rfl, hfirst, htail⟩ := List.map_eq_cons_iff.mp hadded
    obtain ⟨last, rfl, hlast⟩ := List.map_eq_singleton_iff.mp htail
    refine ⟨[(first.1, { first.2 with data := note'.1, attempt := note'.2 }), last], ?_, ?_⟩
    · rw [hstream, hlimit, newest, newest]
      simp
    · rw [if_pos rfl, ← hlast]
      rfl

/-- What a release leaves of a task with a record: it goes, or it moves between the terminal lists. -/
structure Refiled (id : String) (v : TaskView) (r : TaskRecord) (v' : TaskView) : Prop where
  log : ∃ rest : List EventBody, (∀ body ∈ rest, body.IsMove) ∧ v'.log = v.log ++ rest.map (r.stamp id)
  record : ∀ r', v'.record = some r' → ∃ currentList history, r' = { r with currentList := currentList, history := history }
  notes : ∀ r', v'.record = some r' → ∃ notes : List Note, (∀ note ∈ notes, note.1.IsMove) ∧ v.Inscribes r notes v' r'
  result : v'.result = v.result

theorem Refiled.refl (h : v.record = some r) : Refiled id v r v where
  log := ⟨[], by simp, by simp⟩
  record r' hr' := ⟨r.currentList, r.history, (Option.some.inj (h.symm.trans hr')).symm⟩
  notes r' hr' := by
    obtain rfl := Option.some.inj (h.symm.trans hr')
    exact ⟨[], by simp, .of_eq h h rfl rfl rfl⟩
  result := rfl

/-- One refiling more. -/
theorem Refiled.refile {v'' : TaskView} (h : Refiled id v r v') (hv : v'.Consistent env.now)
    (hstep : TaskStep env id v' .refile v'') : Refiled id v r v'' := by
  obtain ⟨r₁, hsettled⟩ := hstep.1
  obtain ⟨rest, hrest, hlog⟩ := h.log
  obtain ⟨currentList, history, hr₁⟩ := h.record r₁ hsettled.record
  obtain ⟨notes, hnotes, hinscribes⟩ := h.notes r₁ hsettled.record
  have hstamp : r₁.stamp = r.stamp := by rw [hr₁]; rfl
  have haccounted := hstep.accounted hv hsettled.record
  refine ⟨⟨rest ++ TaskAction.refile.bodies env r₁, ?_, ?_⟩, fun r' hr' => ?_, fun r' hr' => ?_, ?_⟩
  · intro body hbody
    rcases List.mem_append.mp hbody with hbody | hbody
    · exact hrest body hbody
    · exact isMove_of_refile hbody
  · rw [haccounted.log, hlog, List.map_append, List.append_assoc, hstamp]
  · obtain ⟨history', hrecord⟩ := haccounted.record
    obtain ⟨outcome, ho⟩ := Option.isSome_iff_exists.mp hsettled.outcome
    simp only [TaskAction.next, ho, Option.elim_some, hr'] at hrecord
    obtain ⟨r₂, hr₂, rfl⟩ := Option.map_eq_some_iff.mp hrecord.symm
    obtain rfl := TaskRecord.placed_eq_some hr₂
    exact ⟨_, history', by rw [hr₁]; rfl⟩
  · obtain ⟨r₂, hnext⟩ := hstep.inscribes hv hsettled.record (by rw [hr']; simp)
    obtain rfl := Option.some.inj (hr'.symm.trans hnext.after)
    refine ⟨notes ++ TaskAction.refile.notes env r₁, fun note hnote => ?_, hinscribes.trans hnext⟩
    rcases List.mem_append.mp hnote with hnote | hnote
    · exact hnotes note hnote
    · obtain ⟨body, hbody, rfl⟩ := List.mem_map.mp hnote
      exact (isMove_of_refile hbody).note _
  · funext g
    exact (hstep.result_eq rfl (by simp [TaskAction.Erases])).trans (congrFun h.result g)

theorem release_refiled {b b' : Busy} {s s' : Store} (h : EnginePath env EngineAction.IsRelease b s b' s')
    (hs : Sane env.now s) {k : TaskKey} {r : TaskRecord} (hr : (s.view k).record = some r) :
    Refiled k.2 (s.view k) r (s'.view k) := by
  induction h with
  | refl => exact .refl hr
  | tail hpath hstep hact ih =>
    rcases hstep.view k with ⟨_, hview⟩ | ⟨a, hon, htask⟩
    · rw [hview]
      exact ih
    · obtain rfl := hact.on hon
      exact ih.refile ((hpath.sane hs).views k) htask

/-- A release leaves every line as it is. -/
theorem release_line {b b' : Busy} {s s' : Store} (h : EnginePath env EngineAction.IsRelease b s b' s')
    (hs : Sane env.now s) (queue : String) : s'.line queue = s.line queue := by
  induction h with
  | refl => rfl
  | @tail _ _ t t' act hpath hstep hact ih =>
    have ht := hpath.sane hs
    rcases hstep.line ht queue with heq | ⟨id, hserves, _, _⟩ | ⟨id, hon, hnew, heq⟩
    · rw [heq, ih]
    · exfalso
      rcases hserves with ⟨leaseToken, lockTimeout, rfl⟩ | rfl | ⟨g, rfl⟩ <;> exact hact
    · -- what is refiled is settled, before and after
      exfalso
      obtain ⟨a, hon⟩ := Option.isSome_iff_exists.mp hon
      obtain rfl := hact.on hon
      rcases hstep.view (queue, id) with ⟨hoff, _⟩ | ⟨a', hon', htask⟩
      · rw [hoff] at hon
        exact absurd hon (by simp)
      · obtain rfl := Option.some.inj (hon.symm.trans hon')
        obtain ⟨r₁, hsettled⟩ := htask.1
        have hmem : id ∈ t'.line queue := by rw [heq]; simp
        have ht' := hstep.sane ht
        obtain ⟨r₂, hr₂, hplace⟩ := Option.bind_eq_some_iff.mp (ht'.mem_line.mp hmem)
        obtain ⟨_, _, hr₂'⟩ := ((Refiled.refl hsettled.record).refile (ht.views (queue, id)) htask).record r₂ hr₂
        have ho := ((ht'.views (queue, id)).placed r₂ hr₂).outcome_eq_none (Or.inl hplace)
        have houtcome : r₂.outcome = r₁.outcome := by rw [hr₂']
        exact absurd hsettled.outcome (by simp [← houtcome, ho])

end EffectMQ
