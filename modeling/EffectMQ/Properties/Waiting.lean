import EffectMQ.Lifecycle.Subscription
import EffectMQ.TaskQueue.Scenario
import EffectMQ.TaskQueue.Settled

/-!
# What a wait returns

Any number of clients wait beside each other and beside every other call. What a wait on an issued handle returns is the
verdict on its generation, and none is missed: a wait that still reads the stream after the verdict finds it in that read.
-/

namespace EffectMQ

open Redis Transition

namespace Waiter

variable {V F : Type} (waiter : Waiter V F)

/-- The verdict on the generation. -/
def Judged (e : Engine) (w : Verdict) : Prop := (e.store.view waiter.generation.key).verdicts waiter.generation.generation = [w]

/-- The engine holds a value in the record or the result of the generation, or in an event published in its queue. -/
def Holds (e : Engine) (value : StoredValue) : Prop :=
  (∃ r, e.store.current waiter.generation = some r ∧ value ∈ r.values) ∨
    (∃ t, e.store.result waiter.generation = some t ∧ value ∈ t.values) ∨
    ∃ entry ∈ (e.store.events waiter.generation.queue).published, value ∈ entry.2.values

/-- A value that the engine held in some state of the run up to now. -/
def Held (e : Engine) (value : StoredValue) : Prop :=
  ∃ calls e₀, engine.Run calls e₀ ∧ engineRely.later e₀ e ∧ waiter.Holds e₀ value

/-- What a result says of the generation: a value and a failure are those of its verdict, decoded; an expired generation has
neither a record nor a result; it is a terminal failure that the wait itself finds a value missing of; and a value that does
not decode is one that the engine held. -/
def Truthful (e : Engine) : Except (WaitError F) (Option V) → Prop
  | .ok value => ∃ raw, waiter.Judged e (.success raw) ∧ waiter.codec.Yields raw value
  | .error (.taskFailed failure) => ∃ raw, waiter.Judged e (.failure raw) ∧ waiter.codec.decodeFailure raw = .ok failure
  | .error .taskNotFound => False
  | .error (.resultExpired latestGeneration) => e.store.current waiter.generation = none ∧
      e.store.result waiter.generation = none ∧ waiter.handle.generation ≤ latestGeneration
  | .error (.corruptStorageValue _) => ∃ raw, waiter.Judged e (.failure raw)
  | .error (.decoding fault) => ∃ value, waiter.Held e value ∧ waiter.codec.Refuses fault value
  | .error _ => True

/-- A read of the stream that comes after the verdict finds it, if no event after the cursor was trimmed. -/
def Heeds (e : Engine) : Query → Prop
  | .read queue position => queue = waiter.generation.queue ∧
      (e.store.Untrimmed waiter.generation.queue waiter.handle.cursor →
        (e.store.view waiter.generation.key).verdicts waiter.generation.generation ≠ [] →
        ∃ entry ∈ entriesAfter (e.store.events waiter.generation.queue).retained position,
          entry.2.taskId = waiter.generation.id ∧ (entry.2.verdict waiter.generation.generation).isSome)
  | .call _ => True

/-- What a read of the stored state says: a wait that goes on stands behind no verdict. -/
def Reads (e : Engine) : Except (WaitError F) (Durable V) → Prop
  | .ok .pending => e.store.Unheard waiter.generation waiter.handle.cursor waiter.handle.cursor
  | .ok (.success value) => waiter.Truthful e (.ok value)
  | .error error => waiter.Truthful e (.error error)

/-- In a state of a run, the generation of the handle was given, and its cursor is not past the events of the queue. -/
structure Known (e : Engine) : Prop where
  run : ∃ calls, engine.Run calls e
  positive : 0 < waiter.handle.generation
  given : waiter.handle.generation ≤ e.store.generations waiter.generation.key
  reached : e.store.Reached waiter.generation.queue waiter.handle.cursor

end Waiter

section

variable {V F : Type} {waiter : Waiter V F} {e e' : Engine} {r : TaskRecord} {t : TerminalResult} {w : Verdict}

namespace Waiter.Known

theorem later (h : waiter.Known e) (hlater : engineRely.later e e') : waiter.Known e' := by
  obtain ⟨calls, hrun⟩ := h.run
  obtain ⟨calls', hpath⟩ := hlater
  exact ⟨⟨_, hrun.extend hpath⟩, h.positive, h.given.trans (path_final hrun hpath _ 0).counter, h.reached.later hrun hpath⟩

theorem judged_later (h : waiter.Known e) (hlater : engineRely.later e e') (hw : waiter.Judged e w) :
    waiter.Judged e' w := by
  obtain ⟨calls, hrun⟩ := h.run
  obtain ⟨calls', hpath⟩ := hlater
  exact path_verdicts hrun hpath hw

/-- A record that is gone stays away. -/
theorem gone_later (h : waiter.Known e) (hlater : engineRely.later e e') (hgone : e.store.current waiter.generation = none) :
    e'.store.current waiter.generation = none := by
  obtain ⟨calls, hrun⟩ := h.run
  obtain ⟨calls', hpath⟩ := hlater
  have hne : ∀ r, e.store.task waiter.generation.key = some r → r.generation ≠ waiter.generation.generation := by
    intro r hr hg
    exact absurd ((current_eq_some_iff.mpr ⟨hr, hg⟩).symm.trans hgone) (by simp)
  have hlost := ((path_final hrun hpath waiter.generation.key waiter.generation.generation).gone h.given hne).1
  by_contra hsome
  obtain ⟨r, hr⟩ := Option.ne_none_iff_exists'.mp hsome
  obtain ⟨hrecord, hg⟩ := current_eq_some_iff.mp hr
  exact hlost r hrecord hg

/-- A generation without a record and a result never has one again. -/
theorem lost_later (h : waiter.Known e) (hlater : engineRely.later e e') (hgone : e.store.current waiter.generation = none)
    (hresult : e.store.result waiter.generation = none) : e'.store.result waiter.generation = none := by
  have hknown := h.later hlater
  obtain ⟨calls, hrun⟩ := h.run
  obtain ⟨calls', hpath⟩ := hlater
  have hfinal := path_final hrun hpath waiter.generation.key waiter.generation.generation
  have hne : ∀ r, e.store.task waiter.generation.key = some r → r.generation ≠ waiter.generation.generation := by
    intro r hr hg
    exact absurd ((current_eq_some_iff.mpr ⟨hr, hg⟩).symm.trans hgone) (by simp)
  by_contra hsome
  obtain ⟨t, ht⟩ := Option.ne_none_iff_exists'.mp hsome
  obtain ⟨calls₁, hrun'⟩ := hknown.run
  have hlast : (e'.store.view waiter.generation.key).terminalOutcomes waiter.generation.generation = [t.outcome] :=
    (run_book hrun' waiter.generation.key waiter.generation.generation).result t ht
  have hfirst : (e.store.view waiter.generation.key).terminalOutcomes waiter.generation.generation ≠ [] := by
    rw [← (hfinal.gone h.given hne).2, hlast]
    simp
  exact absurd (hfinal.forgotten hfirst hresult) hsome

theorem held_of_holds (h : waiter.Known e) {value : StoredValue} (hvalue : waiter.Holds e value) : waiter.Held e value := by
  obtain ⟨calls, hrun⟩ := h.run
  exact ⟨calls, e, hrun, engineRely.refl e, hvalue⟩

/-- What a result says stays true. -/
theorem truthful_later (h : waiter.Known e) (result : Except (WaitError F) (Option V)) (hlater : engineRely.later e e')
    (hresult : waiter.Truthful e result) : waiter.Truthful e' result := by
  cases result with
  | ok value =>
    obtain ⟨raw, hw, hyields⟩ := hresult
    exact ⟨raw, h.judged_later hlater hw, hyields⟩
  | error error =>
    cases error with
    | taskFailed failure =>
      obtain ⟨raw, hw, hdecoded⟩ := hresult
      exact ⟨raw, h.judged_later hlater hw, hdecoded⟩
    | corruptStorageValue message =>
      obtain ⟨raw, hw⟩ := hresult
      exact ⟨raw, h.judged_later hlater hw⟩
    | resultExpired latestGeneration =>
      obtain ⟨hgone, hnone, hle⟩ := hresult
      exact ⟨h.gone_later hlater hgone, h.lost_later hlater hgone hnone, hle⟩
    | decoding fault =>
      obtain ⟨value, ⟨calls, e₀, hrun, hbefore, hholds⟩, hrefuses⟩ := hresult
      exact ⟨value, ⟨calls, e₀, hrun, engineRely.trans _ _ _ hbefore hlater, hholds⟩, hrefuses⟩
    | taskNotFound => exact hresult
    | taskHandleMismatch | unsupportedProtocolVersion | schemaIdentityMismatch | stream | engine | waiting => trivial

theorem reads_later (h : waiter.Known e) (hlater : engineRely.later e e') {result : Except (WaitError F) (Durable V)}
    (hresult : waiter.Reads e result) : waiter.Reads e' result := by
  cases result with
  | error error => exact h.truthful_later (.error error) hlater hresult
  | ok durable =>
    cases durable with
    | success value => exact h.truthful_later (.ok value) hlater hresult
    | pending =>
      obtain ⟨calls, hrun⟩ := h.run
      obtain ⟨calls', hpath⟩ := hlater
      exact Store.Unheard.later hrun hpath hresult

end Waiter.Known

/-! ### The stored state -/

namespace Waiter.Known

theorem truthful_of_isFault (h : waiter.Known e) {error : WaitError F} {held : StoredValue → Prop}
    (herror : error.IsFault waiter.codec held) (hheld : ∀ value, held value → waiter.Holds e value) :
    waiter.Truthful e (.error error) := by
  cases error with
  | unsupportedProtocolVersion | schemaIdentityMismatch => trivial
  | decoding fault =>
    obtain ⟨value, hvalue, hrefuses⟩ := herror
    exact ⟨value, h.held_of_holds (hheld value hvalue), hrefuses⟩
  | taskHandleMismatch | corruptStorageValue | taskFailed | taskNotFound | resultExpired | stream | engine | waiting =>
    exact herror.elim

theorem done_reads (h : waiter.Known e) {result : Except (WaitError F) (Durable V)} (hresult : waiter.Reads e result) :
    (Process.done result).Ensures engineRely waiter.Heeds waiter.Reads e := fun _ ht => h.reads_later ht hresult

theorem done_truthful (h : waiter.Known e) {result : Except (WaitError F) (Option V)} (hresult : waiter.Truthful e result) :
    (Process.done result).Ensures engineRely waiter.Heeds waiter.Truthful e := fun _ ht => h.truthful_later _ ht hresult

theorem record_judged (h : waiter.Known e) (hr : e.store.task waiter.generation.key = some r)
    (hg : r.generation = waiter.handle.generation) (ho : r.outcome.isSome) : ∃ w, waiter.Judged e w ∧ w.OfRecord r := by
  obtain ⟨calls, hrun⟩ := h.run
  exact (run_attests hrun waiter.generation.key waiter.generation.generation).record r hr hg ho

theorem result_judged (h : waiter.Known e) (ht : e.store.result waiter.generation = some t) :
    t.generation = waiter.handle.generation ∧ ∃ w, waiter.Judged e w ∧ w.OfResult t := by
  obtain ⟨calls, hrun⟩ := h.run
  exact (run_attests hrun waiter.generation.key waiter.generation.generation).result t ht

theorem decodeTerminalResult_reads (h : waiter.Known e) (ht : e.store.result waiter.generation = some t) :
    waiter.Reads e (waiter.codec.decodeTerminalResult waiter.handle t) := by
  obtain ⟨hgeneration, w, hw, hshown⟩ := h.result_judged ht
  have hholds : ∀ value ∈ t.values, waiter.Holds e value := fun value hvalue => Or.inr (Or.inl ⟨t, ht, hvalue⟩)
  unfold QueueCodec.decodeTerminalResult
  split
  · next fault hfault => exact h.truthful_of_isFault (QueueCodec.identityFault_isFault hfault) hholds
  · rw [if_neg (not_not_intro hgeneration)]
    cases w with
    | success raw =>
      rw [hshown.1, hshown.2]
      dsimp only
      cases hdecoded : waiter.codec.decodeSuccess raw with
      | error fault => exact ⟨.success raw, h.held_of_holds (hholds _ (by simp [TerminalResult.values, hshown.2])), hdecoded⟩
      | ok v => exact ⟨raw, hw, QueueCodec.yields_of_decodeSuccess hdecoded⟩
    | failure raw =>
      rw [hshown.1]
      dsimp only
      cases hfailure : t.failure with
      | none => exact ⟨raw, hw⟩
      | some failure =>
        obtain rfl := hshown.2 failure hfailure
        dsimp only
        cases hdecoded : waiter.codec.decodeFailure failure with
        | error fault =>
          exact ⟨.failure failure, h.held_of_holds (hholds _ (by simp [TerminalResult.values, hfailure])), hdecoded⟩
        | ok decoded => exact ⟨failure, hw, hdecoded⟩

end Waiter.Known

/-- An invocation that only looks at the store. -/
theorem invoke_ensures {α : Type} {ends : Engine → Except (WaitError F) α → Prop} {op : Op} (reply : Store → Reply)
    {next : Reply → Process Query Answer (Except (WaitError F) α)} (hop : ∀ env w, op.run env w = (reply w.store, w))
    (hlost : ∀ t, ends t (.error (.engine .lost)))
    (hnext : ∀ t, engineRely.later e t → (next (reply t.store)).Ensures engineRely waiter.Heeds ends t) :
    (invoke op next).Ensures engineRely waiter.Heeds ends e := by
  intro t ht
  refine ⟨trivial, fun answer u hanswer => ?_⟩
  cases answer with
  | entries => exact hanswer.elim
  | lost => exact fun t _ => hlost t
  | reply reply' =>
    have hlater := engineRely.trans _ _ _ ht (engineRely.answers_later _ (.call op) (.reply reply') _ hanswer)
    obtain ⟨c, rfl, rfl, hstep⟩ := hanswer
    obtain ⟨hreply, hstore⟩ := exec_replied hstep.2.2
    rw [hop] at hreply hstore
    have hnext := hnext u hlater
    rw [← hstore] at hnext
    rw [← hreply]
    exact hnext

theorem readResult_ensures (h : waiter.Known e) {latest : Process Query Answer (Except (WaitError F) (Durable V))}
    (hlatest : ∀ t, engineRely.later e t → t.store.result waiter.generation = none →
      latest.Ensures engineRely waiter.Heeds waiter.Reads t) :
    (TaskQueue.readResult waiter.codec waiter.client waiter.handle latest).Ensures engineRely waiter.Heeds waiter.Reads e := by
  refine invoke_ensures (fun s => .result (s.result waiter.generation)) (fun _ _ => rfl) (fun _ => trivial) fun t ht => ?_
  cases hresult : t.store.result waiter.generation with
  | none => exact hlatest t ht hresult
  | some result => exact (h.later ht).done_reads ((h.later ht).decodeTerminalResult_reads hresult)

theorem readDurable_ensures (h : waiter.Known e) :
    (TaskQueue.readDurable waiter.codec waiter.client waiter.handle).Ensures engineRely waiter.Heeds waiter.Reads e := by
  refine invoke_ensures (fun s => .task (s.task waiter.generation.key)) (fun _ _ => rfl) (fun _ => trivial) fun t ht => ?_
  have h := h.later ht
  cases hr : t.store.task waiter.generation.key with
  | none =>
    have hgone : t.store.current waiter.generation = none := by
      by_contra hne
      obtain ⟨r, hcurrent⟩ := Option.ne_none_iff_exists'.mp hne
      exact absurd (hr.symm.trans (current_eq_some_iff.mp hcurrent).1) (by simp)
    refine readResult_ensures h fun u hu hnone => ?_
    refine invoke_ensures (fun s => .generation (s.generations waiter.generation.key)) (fun _ _ => rfl) (fun _ => trivial) fun v hv => ?_
    have hv' := (h.later hu).later hv
    have hpositive := hv'.positive.trans_le hv'.given
    dsimp only
    rw [if_neg hpositive.ne']
    refine hv'.done_reads ⟨?_, ?_, hv'.given⟩
    · exact h.gone_later (engineRely.trans _ _ _ hu hv) hgone
    · exact (h.later hu).lost_later hv (h.gone_later hu hgone) hnone
  | some stored =>
    dsimp only
    split
    · next hne =>
      have hgone : t.store.current waiter.generation = none := by
        by_contra hne'
        obtain ⟨r, hcurrent⟩ := Option.ne_none_iff_exists'.mp hne'
        obtain ⟨hrecord, hg⟩ := current_eq_some_iff.mp hcurrent
        obtain rfl := Option.some.inj (hr.symm.trans hrecord)
        exact hne hg
      obtain ⟨calls, hrun⟩ := h.run
      have hgeneration := ((run_sane hrun).views waiter.generation.key).generation stored hr
      refine readResult_ensures h fun u hu hnone => (h.later hu).done_reads ⟨h.gone_later hu hgone, hnone, ?_⟩
      exact h.given.trans_eq hgeneration.1.symm
    · next hg =>
      rw [ne_eq, not_not] at hg
      cases ho : stored.outcome with
      | none =>
        obtain ⟨calls, hrun⟩ := h.run
        refine h.done_reads (unheard_of_pending h.reached ?_)
        have hbook := (run_book hrun waiter.generation.key waiter.generation.generation).outcome stored hr hg
        rw [ho, TaskView.terminalOutcomes_eq] at hbook
        exact List.map_eq_nil_iff.mp hbook
      | some outcome =>
        obtain ⟨w, hw, hshown⟩ := h.record_judged hr hg (by rw [ho]; rfl)
        dsimp only
        cases hdecoded : waiter.codec.decodeTask stored with
        | error error =>
          refine h.done_reads (h.truthful_of_isFault (QueueCodec.decodeTask_isFault hdecoded) fun value hvalue => ?_)
          exact Or.inl ⟨stored, current_eq_some_iff.mpr ⟨hr, hg⟩, hvalue⟩
        | ok task =>
          cases w with
          | success raw =>
            obtain rfl := Option.some.inj (ho.symm.trans hshown.1)
            have hfields := QueueCodec.decodeFields_of_decodeTask hdecoded
            exact h.done_reads ⟨raw, hw, QueueCodec.decodeFields_success hfields hshown.2⟩
          | failure raw =>
            obtain rfl := Option.some.inj (ho.symm.trans hshown.1)
            dsimp only
            split
            · next lastFailure hlast =>
              obtain ⟨hlast, _⟩ := Option.filter_eq_some_iff.mp hlast
              obtain ⟨entry, hentry, hfailure⟩ :=
                QueueCodec.decodeFields_errors (QueueCodec.decodeFields_of_decodeTask hdecoded) hlast
              rw [hshown.2 entry hentry] at hfailure
              exact h.done_reads ⟨raw, hw, hfailure⟩
            · exact readResult_ensures h fun u hu _ => (h.later hu).done_reads ⟨raw, h.judged_later hu hw⟩

/-! ### The stream -/

/-- What a stream settles the generation of the handle with is its verdict. -/
theorem Waiter.Known.judged (h : waiter.Known e) {entry : StreamId × Event}
    (hentry : entry ∈ (e.store.events waiter.generation.queue).published) (hid : entry.2.taskId = waiter.handle.taskId)
    (hw : entry.2.verdict waiter.handle.generation = some w) : waiter.Judged e w := by
  obtain ⟨calls, hrun⟩ := h.run
  have hmem : w ∈ (e.store.view waiter.generation.key).verdicts waiter.generation.generation :=
    mem_verdicts.mpr ⟨entry, hentry, hid, hw⟩
  have hlength := run_verdicts_length hrun waiter.generation.key waiter.generation.generation
  obtain ⟨w', hw'⟩ := List.length_eq_one_iff.mp (le_antisymm hlength (List.length_pos_of_mem hmem))
  rw [hw', List.mem_singleton] at hmem
  rw [hmem]
  exact hw'

theorem awaitTerminal_ensures (h : waiter.Known e) (hqueue : waiter.handle.queue = waiter.codec.name) (reads : ℕ)
    {position : StreamId} (hunheard : e.store.Unheard waiter.generation waiter.handle.cursor position) :
    (TaskQueue.awaitTerminal waiter.codec waiter.client waiter.handle reads position).Ensures engineRely waiter.Heeds
      waiter.Truthful e := by
  induction reads generalizing e position with
  | zero => exact h.done_truthful trivial
  | succ reads ih =>
    intro t ht
    have h := h.later ht
    obtain ⟨calls, hrun⟩ := h.run
    have hunheard : t.store.Unheard waiter.generation waiter.handle.cursor position := by
      obtain ⟨calls₀, hrun₀⟩ := ‹waiter.Known e›.run
      obtain ⟨calls', hpath⟩ := ht
      exact hunheard.later hrun₀ hpath
    have hread : waiter.client.withPrefix waiter.codec.name = waiter.generation.queue := by
      rw [← hqueue]
      rfl
    refine ⟨⟨hread, fun huntrimmed hverdict => hunheard.finds huntrimmed hverdict⟩, fun answer u hanswer => ?_⟩
    cases answer with
    | reply => exact hanswer.elim
    | lost => exact fun _ _ => trivial
    | entries entries =>
      obtain ⟨rfl, hentries⟩ := hanswer
      rw [hread] at hentries
      have hpublished : ∀ entry ∈ entries, entry ∈ (u.store.events waiter.generation.queue).published := by
        intro entry hentry
        rw [hentries] at hentry
        exact List.mem_of_mem_drop (List.mem_filter.mp hentry).1
      dsimp only
      split
      · next error herror =>
        refine h.done_truthful (h.truthful_of_isFault (QueueCodec.firstTerminal_isFault herror) fun value hvalue => ?_)
        obtain ⟨entry, hentry, hvalue⟩ := hvalue
        exact Or.inr (Or.inr ⟨entry, hpublished entry hentry, hvalue⟩)
      · next value hvalue =>
        obtain ⟨entry, hentry, hid, w, hw, hdecodes⟩ := QueueCodec.firstTerminal_some hvalue
        cases w with
        | failure raw => exact hdecodes.elim
        | success raw =>
          exact h.done_truthful ⟨raw, h.judged (hpublished entry hentry) hid hw, QueueCodec.yields_of_decodeSuccess hdecodes⟩
      · next failure hfailure =>
        obtain ⟨entry, hentry, hid, w, hw, hdecodes⟩ := QueueCodec.firstTerminal_some hfailure
        cases w with
        | success raw => exact hdecodes.elim
        | failure raw => exact h.done_truthful ⟨raw, h.judged (hpublished entry hentry) hid hw, hdecodes⟩
      · next hnone =>
        exact ih h (hunheard.read hentries fun entry hentry hid => QueueCodec.firstTerminal_none hnone hentry hid)

theorem stream_ensures (h : waiter.Known e) (hqueue : waiter.handle.queue = waiter.codec.name) (reads : ℕ)
    (hunheard : e.store.Unheard waiter.generation waiter.handle.cursor waiter.handle.cursor) :
    (TaskQueue.stream waiter.codec waiter.client waiter.handle reads).Ensures engineRely waiter.Heeds waiter.Truthful e := by
  refine invoke_ensures (fun s => eventCursors s (waiter.client.withPrefix waiter.codec.name)) (fun _ _ => rfl)
    (fun _ => trivial) fun t ht => ?_
  have hunheard : t.store.Unheard waiter.generation waiter.handle.cursor waiter.handle.cursor := by
    obtain ⟨calls₀, hrun₀⟩ := h.run
    obtain ⟨calls', hpath⟩ := ht
    exact hunheard.later hrun₀ hpath
  unfold eventCursors
  dsimp only
  split
  · exact awaitTerminal_ensures (h.later ht) hqueue reads hunheard
  · exact (h.later ht).done_truthful trivial

theorem wait_ensures (h : waiter.Known e) : waiter.program.Ensures engineRely waiter.Heeds waiter.Truthful e := by
  unfold Waiter.program TaskQueue.wait
  split
  · exact h.done_truthful trivial
  · next hname =>
    rw [not_or, not_not] at hname
    split
    · exact h.done_truthful trivial
    · split
      · exact h.done_truthful trivial
      · refine (readDurable_ensures h).andThen (fun _ _ herror => herror) fun t durable ht hdurable => ?_
        have h := h.later ht
        cases durable with
        | success value => exact h.done_truthful hdurable
        | pending =>
          refine (readDurable_ensures h).beside (stream_ensures h hname.1 _ hdurable) (fun u result fiber hu hresult hfiber => ?_) _
          have h := h.later hu
          cases result with
          | error error => exact h.done_truthful hresult
          | ok durable =>
            cases durable with
            | success value => exact h.done_truthful hresult
            | pending => exact hfiber

/-! ### Runs -/

variable {moves : List (Move (Waiter V F) Observation)} {i : ℕ} {log : List (Query × Answer)}
  {s : Parties Engine (Waiter V F) Query Answer (Except (WaitError F) (Option V))}

theorem known_of_issued {c : Call} (hstep : engine.step e c e') {calls : List Call} (hrun : engine.Run calls e)
    (hissued : waiter.IssuedBy c) : waiter.Known e' := by
  unfold Waiter.IssuedBy at hissued
  split at hissued
  · next a hop =>
    obtain ⟨hqueue, hid, hhanded⟩ := hissued
    obtain ⟨task, hreply, hgeneration⟩ : ∃ task, (c.reply = .created waiter.handle.cursor task ∨
        c.reply = .existing waiter.handle.cursor task) ∧ task.generation = waiter.handle.generation := by
      unfold Reply.handed at hhanded
      split at hhanded
      · next cursor r hreply =>
        obtain ⟨hgeneration, rfl⟩ := Prod.mk.inj (Option.some.inj hhanded)
        exact ⟨r, Or.inl hreply, hgeneration⟩
      · next cursor r hreply =>
        obtain ⟨hgeneration, rfl⟩ := Prod.mk.inj (Option.some.inj hhanded)
        exact ⟨r, Or.inr hreply, hgeneration⟩
      · cases hhanded
    obtain ⟨⟨hlast, hpositive⟩, hreached⟩ := offer_reached hrun hstep hop hreply
    have hkey : (a.queue, a.id) = waiter.generation.key := by
      rw [hqueue, hid]
      rfl
    rw [hkey, hgeneration] at hlast
    rw [hkey, ← hlast] at hpositive
    rw [hqueue] at hreached
    exact ⟨⟨_, hrun.snoc hstep⟩, hpositive, hlast.le, hreached⟩
  · exact hissued.elim

/-- A waiter whose handle was issued is known. -/
theorem known_of_mem {observations : List Observation} (h : observed.Run observations e) (hc : Observation.call c ∈ observations)
    (hissued : waiter.IssuedBy c) : waiter.Known e := by
  obtain ⟨before, after, e₁, e₂, -, hbefore, hstep, hafter⟩ := h.of_mem hc
  exact (known_of_issued hstep (observed_run hbefore) hissued).later ⟨_, observed_path hafter⟩

theorem run_wait_ensures (h : (waiters V F).Run moves s) (hissued : waiter.Issued moves)
    {rest : Process Query Answer (Except (WaitError F) (Option V))} (hi : s.party i = some ⟨waiter, log, rest⟩) :
    rest.Ensures engineRely waiter.Heeds waiter.Truthful s.shared := by
  refine party_ensures (fun _ _ _ => observed_answers) h (fun before i after t heq ht => ?_) hi
  obtain ⟨c, hc, hissued⟩ := hissued before i after heq
  exact wait_ensures (known_of_mem (parties_run ht) hc hissued)

/-- What a wait on an issued handle returned is the verdict on its generation, and stays it. -/
theorem run_wait_truthful (h : (waiters V F).Run moves s) (hissued : waiter.Issued moves)
    {result : Except (WaitError F) (Option V)} (hi : s.party i = some ⟨waiter, log, .done result⟩) :
    waiter.Truthful s.shared result :=
  (run_wait_ensures h hissued hi).ends_now

theorem run_wait_truthful_mail : ∃ moves s waiter log, (waiters String LuaValue).Run moves s ∧ waiter.Issued moves ∧
    s.party 0 = some ⟨waiter, log, .done (.ok (some "sent"))⟩ ∧ waiter.Truthful s.shared (.ok (some "sent")) := by
  obtain ⟨moves, s, waiter, log, rest, h, hissued, hi, hrest⟩ := @Mail.shows_run (Mail.turns ++ [.call 0 (.at 5)])
    (fun _ _ => Mail.hasReturned) (by decide +kernel)
  obtain rfl : rest = .done (.ok (some "sent")) := by
    unfold Mail.hasReturned at hrest
    split at hrest
    · rw [of_decide_eq_true hrest]
    · cases hrest
  exact ⟨moves, s, waiter, log, h, hissued, hi, run_wait_truthful h hissued hi⟩

/-- A wait on an issued handle misses no verdict: where it is about to read the stream of its queue once the verdict is
published, and no event after its cursor was trimmed, that read ends the stream. -/
theorem run_wait_unmissed (h : (waiters V F).Run moves s) (hissued : waiter.Issued moves) {queue : String}
    {position : StreamId} {next : Answer → Process Query Answer (Except (WaitError F) (Option V))}
    (hi : s.party i = some ⟨waiter, log, .ask (.read queue position) next⟩)
    (huntrimmed : s.shared.store.Untrimmed queue waiter.handle.cursor)
    (hverdict : (s.shared.store.view waiter.generation.key).verdicts waiter.handle.generation ≠ []) :
    waiter.codec.firstTerminal waiter.handle (entriesAfter (s.shared.store.events queue).retained position) ≠ .ok none := by
  obtain ⟨rfl, hfinds⟩ := (run_wait_ensures h hissued hi).asks_now
  obtain ⟨entry, hentry, hid, hsome⟩ := hfinds huntrimmed hverdict
  intro hnone
  exact QueueCodec.firstTerminal_none hnone hentry hid hsome

theorem run_wait_unmissed_mail : ∃ moves s waiter log queue position next, (waiters String LuaValue).Run moves s ∧
    waiter.Issued moves ∧ s.party 0 = some ⟨waiter, log, .ask (.read queue position) next⟩ ∧
    waiter.codec.firstTerminal waiter.handle (entriesAfter (s.shared.store.events queue).retained position) ≠ .ok none := by
  obtain ⟨moves, s, waiter, log, rest, h, hissued, hi, hrest⟩ := @Mail.shows_run Mail.turns
    Mail.isReading (by decide +kernel)
  unfold Mail.isReading at hrest
  split at hrest
  · next queue position next =>
    obtain ⟨htrimmed, hverdict⟩ := Bool.and_eq_true_iff.mp hrest
    refine ⟨moves, s, waiter, log, queue, position, next, h, hissued, hi,
      run_wait_unmissed h hissued hi ?_ (of_decide_eq_true hverdict)⟩
    intro entry hentry
    rw [of_decide_eq_true htrimmed] at hentry
    cases hentry
  · cases hrest

end

end EffectMQ
