import EffectMQ.Properties.Settlement
import EffectMQ.Properties.FailureRouting

/-!
# The copies of an outcome

A settlement writes its value to the result, to the event and to the record. The copies of a success and of a stall
always agree; those of a reported failure agree unless the failure is `nil`, which the two places that keep it in a
Lua table field do not keep.
-/

namespace EffectMQ

open Redis Transition

/-- The `error` field of an entry: a table has no field that is `nil`. -/
def ErrorEntry.field (e : ErrorEntry) : Option LuaValue := if e.error = .nil then none else some e.error

/-- The copies of a failure that settled a generation, which found the store `m` and left the store `s`. -/
structure FailureCopies (m s : Store) (x : TaskIdentity) (r : TaskRecord) (error : LuaValue) (kind : FailureKind) :
    Prop where
  result : (s.result x).bind TerminalResult.failure = some error
  event : ∃ (retryAt : Option ℚ) (rest : List EventBody), (∀ body ∈ rest, body.IsMove) ∧
    s.log x.queue x.id = m.log x.queue x.id ++ (r.failureBody error kind true retryAt :: rest).map (r.stamp x.id)
  entry : ∀ r', s.current x = some r' → 0 < r.maxErrorEntries →
    r'.errors.getLast?.bind ErrorEntry.field = some error

/-- The copies of a success. -/
structure SuccessCopies (m s : Store) (x : TaskIdentity) (r : TaskRecord) (success : String) : Prop where
  result : (s.result x).bind TerminalResult.success = some success
  event : ∃ rest : List EventBody, (∀ body ∈ rest, body.IsMove) ∧ s.log x.queue x.id = m.log x.queue x.id ++
    (.completed success r.onSuccessPolicy :: rest).map (r.stamp x.id)
  record : ∀ r', s.current x = some r' → r'.success = some success

section

variable {env : Env} {m t s : Store} {x : TaskIdentity} {r : TaskRecord} {cause : Cause} {error : LuaValue} {retryAt : ℚ}
  {a : TaskAction} {b : Busy}

/-- A running attempt has no result yet. -/
theorem TaskView.Book.result_of_running {g : ℕ} {v : TaskView} (hbook : v.Book g) (hrunning : v.Running r)
    (hg : r.generation = g) : v.result g = none := by
  have hempty : v.terminalOutcomes g = [] := by
    rw [hbook.outcome r hrunning.record hg, hrunning.outcome]
    rfl
  by_contra hne
  obtain ⟨t, ht⟩ := Option.ne_none_iff_exists'.mp hne
  exact absurd ((hbook.result t ht).symm.trans hempty) (by simp)

/-- The failure that the result of a settled failure carries. -/
theorem FailsInto.result_failure (h : FailsInto env m (x.queue, x.id) r cause error retryAt a b t s)
    (hgeneration : r.generation = x.generation) (hbook : (m.view (x.queue, x.id)).Book x.generation)
    (hterminal : willRetry error (retryTime retryAt) = false) :
    (s.result x).bind TerminalResult.failure = if error = .nil then none else some error := by
  obtain ⟨held, rfl⟩ : ∃ held, a = .fail cause error retryAt held := by
    rcases h.failure with rfl | hfail
    · exact absurd h.task.1.2.2 (by simp [hterminal])
    · exact hfail
  obtain ⟨history, hfailed⟩ := TaskView.record_recordFailure env x.id h.running.record error (retryTime retryAt) cause.kind
  have hset : ((TaskAction.failed env x.id cause error retryAt (m.view (x.queue, x.id))).set env
      fun r => { r with outcome := some .failure }).record =
      some ((r.exhausted env error (retryTime retryAt) cause.kind).withHistory history) :=
    congrArg (Option.map _) hfailed
  have hresult := TaskView.result_settle env x.id hset error held
  have hold : ((TaskAction.failed env x.id cause error retryAt (m.view (x.queue, x.id))).set env
      fun r => { r with outcome := some .failure }).result = (m.view (x.queue, x.id)).result := rfl
  have hgeneration' : ((r.exhausted env error (retryTime retryAt) cause.kind).withHistory history).generation =
    x.generation := (TaskRecord.generation_failed env r error (retryTime retryAt) cause.kind).trans hgeneration
  have hview : (s.view (x.queue, x.id)).result x.generation = some (TaskView.resultOf env
      ((r.exhausted env error (retryTime retryAt) cause.kind).withHistory history) none error) := by
    rw [h.result, h.task.2]
    refine (congrFun hresult x.generation).trans ?_
    rw [hgeneration', Function.update_self, hold, hbook.result_of_running h.running hgeneration]
  have hstored : s.result x = _ := hview
  rw [hstored]
  by_cases hnil : error = .nil
  · -- the fallback to the error list finds a `nil` entry or no entry
    subst hnil
    have hlast : ((r.exhausted env .nil (retryTime retryAt) cause.kind).errors.getLast?.map ErrorEntry.error).filter
        (fun e => e ≠ .nil ∧ e ≠ .boolean false) = none := by
      have herrors : (r.exhausted env .nil (retryTime retryAt) cause.kind).errors =
          appendError r.maxErrorEntries r.errors ⟨.nil, env.clock, retryTime retryAt⟩ := by
        unfold TaskRecord.exhausted TaskRecord.failed
        split <;> rfl
      rw [herrors]
      by_cases hpos : 0 < r.maxErrorEntries
      · rw [getLast?_appendError hpos]
        rfl
      · rw [appendError, if_pos (Nat.eq_zero_of_not_pos hpos)]
        rfl
    simp only [Option.bind_some, TaskView.resultOf, terminalFailureOf, ↓reduceIte]
    exact (congrArg (fun failure : Option LuaValue => failure <|> none) hlast).trans rfl
  · rw [if_neg hnil]
    simp only [Option.bind_some, TaskView.resultOf, terminalFailureOf, hnil, ↓reduceIte]
    rfl

/-- The copies of a settled failure agree exactly when the failure is not `nil`. -/
theorem FailsInto.copies_iff (h : FailsInto env m (x.queue, x.id) r cause error retryAt a b t s)
    (hgeneration : r.generation = x.generation) (hbook : (m.view (x.queue, x.id)).Book x.generation)
    (hterminal : willRetry error (retryTime retryAt) = false) :
    FailureCopies m s x r error cause.kind ↔ error ≠ .nil := by
  have hresult := h.result_failure hgeneration hbook hterminal
  refine ⟨fun hcopies hnil => ?_, fun hnil => ⟨?_, ?_, fun r' hr' hpos => ?_⟩⟩
  · rw [hcopies.result, if_pos hnil] at hresult
    exact absurd hresult (by simp)
  · rw [hresult, if_neg hnil]
  · obtain ⟨rest, hrest, hlog⟩ := h.event
    rw [hterminal] at hlog
    exact ⟨_, rest, hrest, hlog⟩
  · rw [(h.failedInto hgeneration).errors r' hr' hpos]
    exact if_neg hnil

/-- The copies of a success always agree. -/
theorem Ends.successCopies {leaseToken success : String} {held : Bool} (hs : Sane env.now m)
    (hrunning : (m.view (x.queue, x.id)).Running r) (hgeneration : r.generation = x.generation)
    (hends : Ends env (x.queue, x.id) (.succeed leaseToken success held) m s) : SuccessCopies m s x r success := by
  obtain ⟨t, hstep, hrelease⟩ := hends
  have htask := hstep.view_task.1
  have ht := hstep.sane hs
  obtain ⟨history, hsucceed⟩ := TaskView.record_succeed env x.id hrunning.record success
  have hresult := TaskView.result_settle env x.id hsucceed .nil held
  have hgeneration' : ((r.succeeded env success).withHistory history).generation = x.generation := hgeneration
  have hview : ((t.view (x.queue, x.id)).result x.generation).bind TerminalResult.success = some success := by
    rw [htask.2]
    refine (congrArg (fun result : ℕ → Option TerminalResult => (result x.generation).bind TerminalResult.success)
      hresult).trans ?_
    simp only [hgeneration', Function.update_self, Option.bind_some, TaskView.resultOf]
    rfl
  have haccounted := htask.accounted (hs.views _) hrunning.record
  cases hr₁ : (t.view (x.queue, x.id)).record with
  | none =>
    have heq : s.view (x.queue, x.id) = t.view (x.queue, x.id) :=
      release_view_eq hrelease fun r' hr' => absurd (hr₁.symm.trans hr') (by simp)
    refine ⟨?_, ⟨(r.succeeded env success).moves r.onSuccessPolicy.list, fun body hbody => isMove_of_moves hbody, ?_⟩,
      fun r' hr' => ?_⟩
    · exact (congrArg (fun v : TaskView => (v.result x.generation).bind TerminalResult.success) heq).trans hview
    · exact (congrArg TaskView.log heq).trans haccounted.log
    · have hnone := (congrArg TaskView.record heq).trans hr₁
      exact absurd ((current_eq_some_iff.mp hr').1.symm.trans hnone) (by simp)
  | some r₁ =>
    have hrefiled := release_refiled hrelease ht hr₁
    obtain ⟨r₂, history', hr₂, rfl⟩ := htask.record_next (hs.views _) hrunning.record hr₁
    obtain rfl := TaskRecord.placed_eq_some hr₂
    obtain ⟨more, hmore, hlog⟩ := hrefiled.log
    refine ⟨?_, ⟨(r.succeeded env success).moves r.onSuccessPolicy.list ++ more, fun body hbody => ?_, ?_⟩, fun r' hr' => ?_⟩
    · exact (congrArg (fun result : ℕ → Option TerminalResult => (result x.generation).bind TerminalResult.success)
        hrefiled.result).trans hview
    · exact (List.mem_append.mp hbody).elim isMove_of_moves (hmore body)
    · refine (show s.log x.queue x.id = _ from hlog).trans ?_
      rw [haccounted.log, List.append_assoc, ← List.cons_append, List.map_append]
      rfl
    · obtain ⟨_, _, hr'⟩ := hrefiled.record r' (current_eq_some_iff.mp hr').1
      rw [hr']
      rfl

end

/-- The book of a generation in the store that the sweep of an operation leaves. -/
theorem swept_book {calls : List Call} {e : Engine} (h : engine.Run calls e) {env : Env} (hclock : e.clock ≤ env.clock)
    (op : Op) (k : TaskKey) (g : ℕ) : ((op.swept env e.store).view k).Book g := by
  have hs : Sane env.now e.store := (run_sane h).mono (Nat.cast_le.mpr hclock)
  exact (swept_path hs op).preserves (I := fun _ s => (s.view k).Book g) hs (run_book h k g)
    fun _ _ _ _ _ hs hbook hstep _ => hstep.book hs hbook

/-- In every run, the copies of a failure that settles its task agree exactly when the failure is not `nil`, and those of
a stall or a success always agree. -/
theorem run_outcomeCopies {calls : List Call} {e e' : Engine} {c : Call} (h : engine.Run calls e)
    (hstep : engine.step e c e') :
    (∀ queue leaseToken id error retryAt, c.op = .writeError queue leaseToken id error (some retryAt) →
      c.reply = .nil → error.errorTag = some canceledTag ∨ retryAt < 0 →
      ∃ r, ((c.op.swept c.env e.store).view (queue, id)).Running r ∧
        (FailureCopies (c.op.swept c.env e.store) e'.store ⟨queue, id, r.generation⟩ r error .handler ↔ error ≠ .nil)) ∧
    (∀ b m k error retryAt held b' t, Occurs (calls ++ [c]) c b m (.task k (.fail .stalled error retryAt held)) b' t →
      ∃ r, (m.view k).Running r ∧ ∀ b'' s, EnginePath c.env EngineAction.IsRelease b' t b'' s →
        FailureCopies m s ⟨k.1, k.2, r.generation⟩ r (stalledError c.env.clock) .stall) ∧
    ∀ queue leaseToken id success, c.op = .writeSuccess queue leaseToken id success → c.reply = .nil →
      ∃ r, ((c.op.swept c.env e.store).view (queue, id)).Running r ∧
        SuccessCopies (c.op.swept c.env e.store) e'.store ⟨queue, id, r.generation⟩ r success := by
  have hs : Sane c.env.now e.store := (run_sane h).mono (Nat.cast_le.mpr hstep.1)
  have hm : Sane c.env.now (c.op.swept c.env e.store) := (swept_path hs c.op).sane hs
  have heffect := exec_effect hs hstep.2.2
  refine ⟨fun queue leaseToken id error retryAt hop hreply hterminal => ?_,
    fun b m k error retryAt held b' t hoccurs => ?_, fun queue leaseToken id success hop hreply => ?_⟩
  · have hbook := swept_book h hstep.1 c.op (queue, id)
    rw [hreply, hop] at heffect
    rw [hop] at hm hbook ⊢
    obtain ⟨r, a, b, t, hfails⟩ := heffect.failsInto hm
    refine ⟨r, hfails.running, hfails.copies_iff (x := ⟨queue, id, r.generation⟩) rfl (hbook r.generation) ?_⟩
    unfold willRetry retryTime
    rcases hterminal with hcanceled | hneg
    · simp [hcanceled]
    · simp [hneg]
  · have htask := hoccurs.step
    obtain rfl : b = none := by
      cases htask
      rfl
    have henabled := htask.view_task.1.1
    obtain ⟨r, hrunning⟩ := henabled.1
    obtain rfl : error = stalledError c.env.clock := henabled.2.1.2.1
    refine ⟨r, hrunning, fun b'' s hrelease => ?_⟩
    have hfails : FailsInto c.env m k r .stalled (stalledError c.env.clock) retryAt (.fail .stalled _ retryAt held) b' t s :=
      ⟨hoccurs.sane, hrunning, Or.inr ⟨held, rfl⟩, htask, b'', hrelease⟩
    have hbook : (m.view k).Book r.generation :=
      hoccurs.preserves (I := fun _ s => (s.view k).Book r.generation) (book_empty k r.generation)
        fun _ _ _ _ _ _ hs hbook hstep => hstep.book hs hbook
    refine (hfails.copies_iff (x := ⟨k.1, k.2, r.generation⟩) rfl hbook henabled.2.2).mpr ?_
    simp [stalledError]
  · rw [hop] at heffect hm ⊢
    generalize hm' : (Op.writeSuccess queue leaseToken id success).swept c.env e.store = m at heffect hm
    rw [hreply] at heffect
    generalize hnil : Reply.nil = reply at heffect
    cases heffect with
    | refused op _ hfault _ =>
      subst hnil
      exact absurd hfault not_false
    | answered op _ hfence _ => exact absurd hfence (by simp [Op.fence, Op.lease])
    | scheduled op _ hop _ _ =>
      rcases hop with ⟨_, _, _, heq⟩ | ⟨_, _, _, _, heq⟩ <;> exact absurd heq (by simp)
    | succeeded howner hends =>
      obtain ⟨r, hrunning⟩ := running_of_leaseholder (hm.views (queue, id)) howner
      exact ⟨r, hrunning, hends.successCopies (x := ⟨queue, id, r.generation⟩) hm hrunning rfl⟩

/-- A `false` failure of a task that keeps no errors. -/
theorem run_outcomeCopies_false : ∃ calls e c e', engine.Run calls e ∧ engine.step e c e' ∧
    ∃ r, ((c.op.swept c.env e.store).view ("mail", "a")).Running r ∧
      FailureCopies (c.op.swept c.env e.store) e'.store ⟨"mail", "a", r.generation⟩ r (.boolean false) .handler := by
  obtain ⟨calls, e, reply, s, hrun, hstep, hreply⟩ := @play_step
    [(.at 1, .createTask { CreateArgs.default "mail" "a" with maxErrorEntries := some 0, onFailurePolicy := .keep }),
      (.at 2, .takeTask "mail" "token" (some 30000))]
    (.at 3) (.writeError "mail" "token" "a" (.boolean false) (some (-1))) (fun _ _ reply _ => decide (reply = .nil))
    (by decide +kernel)
  obtain ⟨r, hrunning, hcopies⟩ := (run_outcomeCopies hrun hstep).1 "mail" "token" "a" (.boolean false) (-1) rfl
    (of_decide_eq_true hreply) (Or.inr (by norm_num))
  exact ⟨calls, e, _, _, hrun, hstep, r, hrunning, hcopies.mpr (by decide)⟩

/-- A `nil` failure leaves a result without a failure. -/
theorem nil_copies_differ : ∃ calls e c e', engine.Run calls e ∧ engine.step e c e' ∧
    c.op = .writeError "mail" "token" "a" .nil (some (-1)) ∧ c.reply = .nil ∧
    ∃ r, ((c.op.swept c.env e.store).view ("mail", "a")).Running r ∧
      ¬ FailureCopies (c.op.swept c.env e.store) e'.store ⟨"mail", "a", r.generation⟩ r .nil .handler := by
  obtain ⟨calls, e, reply, s, hrun, hstep, hreply⟩ := @play_step
    [(.at 1, .createTask (.default "mail" "a")), (.at 2, .takeTask "mail" "token" (some 30000))]
    (.at 3) (.writeError "mail" "token" "a" .nil (some (-1))) (fun _ _ reply _ => decide (reply = .nil))
    (by decide +kernel)
  obtain rfl := of_decide_eq_true hreply
  have hs : Sane (Env.at 3).now e.store := (run_sane hrun).mono (Nat.cast_le.mpr hstep.1)
  obtain ⟨r, a, b, t, hfails⟩ := (exec_effect hs hstep.2.2).failsInto ((swept_path hs _).sane hs)
  refine ⟨calls, e, _, _, hrun, hstep, rfl, rfl, r, hfails.running, fun hcopies => ?_⟩
  have hbook := swept_book hrun hstep.1 (.writeError "mail" "token" "a" .nil (some (-1))) ("mail", "a") r.generation
  exact (hfails.copies_iff (x := ⟨"mail", "a", r.generation⟩) rfl hbook (by simp [willRetry, retryTime])).mp hcopies rfl

end EffectMQ
