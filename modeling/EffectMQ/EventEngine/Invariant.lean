import EffectMQ.EventEngine.Dispatch
import EffectMQ.EventEngine.Index

/-!
# The invariant of an event store

Every stored event is indexed as its record says, and every removal that a pending recipient still needs is remembered.
What the script normalizes on its way leaves the eager reading of every event as it is.
-/

namespace EffectMQ.EventEngine

open Redis

structure EventInvariant (p : Policy) (now : ℕ) (s : EventStore) : Prop where
  sound : ∀ id r, s.record id = some r → Sound p id r
  indexed : ∀ id, Indexed (s.event id)
  live : ∀ id r, s.record id = some r → r.status = .active → 0 < r.pending
  retired : ∀ generation, s.retired.score generation = (s.removed.lookup generation).map Nat.cast
  removedAt : ∀ generation time, s.removed.lookup generation = some time → time ≤ now
  owed : ∀ id r name generation, s.record id = some r → r.Expects name generation →
    s.subscriptions.lookup name = some generation ∨ (s.removed.lookup generation).isSome

/-- The eager reading of an event in a store. -/
def EventStore.reading (s : EventStore) (p : Policy) (now : ℕ) (id : String) : Option EventRecord :=
  (s.record id).bind (resolve p s.removed now)

/-- What the script does on its way: some events are brought to their eager reading, and some removals that no pending
recipient needs are forgotten. -/
structure Sweeps (p : Policy) (now : ℕ) (s s' : EventStore) : Prop where
  config : s'.config = s.config
  subscriptions : s'.subscriptions = s.subscriptions
  invariant : EventInvariant p now s'
  reading : ∀ id, s'.reading p now id = s.reading p now id
  record : ∀ id, s'.record id = s.record id ∨ s'.record id = s.reading p now id
  removed : ∀ generation, s'.removed.lookup generation = s.removed.lookup generation ∨
    s'.removed.lookup generation = none

section

variable {env : EventEnv} {p : Policy} {removed : Hash ℕ} {now : ℕ} {id generation : String} {r r' : EventRecord}
  {s s' s'' : EventStore}

theorem Sweeps.refl (h : EventInvariant p now s) : Sweeps p now s s :=
  ⟨rfl, rfl, h, fun _ => rfl, fun _ => Or.inl rfl, fun _ => Or.inl rfl⟩

theorem Sweeps.trans (h : Sweeps p now s s') (h' : Sweeps p now s' s'') : Sweeps p now s s'' where
  config := h'.config.trans h.config
  subscriptions := h'.subscriptions.trans h.subscriptions
  invariant := h'.invariant
  reading id := (h'.reading id).trans (h.reading id)
  record id := by
    rcases h'.record id with heq | heq
    · rw [heq]
      exact h.record id
    · exact Or.inr (heq.trans (h.reading id))
  removed generation := by
    rcases h'.removed generation with heq | heq
    · rw [heq]
      exact h.removed generation
    · exact Or.inr heq

theorem EventInvariant.mono (h : EventInvariant p now s) {now' : ℕ} (hle : now ≤ now') : EventInvariant p now' s :=
  { h with removedAt := fun generation time htime => (h.removedAt generation time htime).trans hle }

/-- A reading is a fixed point. -/
theorem reading_resolve : (s.reading p now id).bind (resolve p s.removed now) = s.reading p now id := by
  unfold EventStore.reading
  cases s.record id with
  | none => rfl
  | some r => exact resolve_resolve (le_refl now)

/-- The reading of a store at a later instant, without the waivers: they are in the reading already. -/
theorem reading_advance (hle : now ≤ now') :
    (s.reading p now id).bind (advance p now') = s.reading p now' id := by
  unfold EventStore.reading
  cases s.record id with
  | none => rfl
  | some r => exact advance_advance hle

/-! ### One event -/

theorem Sound.settledRecord (h : Sound p id r) (hactive : r.status = .active) {status : EventStatus}
    (hstatus : status ≠ .active) {time : ℕ} (hlasts : lasts p now (settledRecord p status time r) = true) :
    Sound p id (settledRecord p status time r) where
  version := h.version
  id := h.id
  generations generation recipient hlookup := by
    rw [EventEngine.settledRecord, Hash.lookup_mapValues] at hlookup
    obtain ⟨before, hbefore, rfl⟩ := Option.map_eq_some_iff.mp hlookup
    exact h.generations generation before hbefore
  unsettled hactive := absurd hactive hstatus
  settled _ := by
    have harchive := ((lasts_of_settled (show (EventEngine.settledRecord p status time r).status ≠ .active from hstatus)).mp
      hlasts).1
    refine ⟨harchive, time, rfl, ?_⟩
    rw [EventEngine.settledRecord, harchive]
    dsimp only
    rw [(h.unsettled hactive).2]
    cases p.archiveRetentionMs <;> rfl

theorem Sound.waiveAll (h : Sound p id r) : Sound p id (waiveAll removed r) where
  version := h.version
  id := h.id
  generations generation recipient hlookup := by
    rw [lookup_waiveAll] at hlookup
    obtain ⟨before, hbefore, rfl⟩ := Option.map_eq_some_iff.mp hlookup
    have hgeneration := h.generations generation before hbefore
    split
    · exact hgeneration
    · exact hgeneration
  unsettled := h.unsettled
  settled := h.settled

theorem Sound.resolve (h : Sound p id r) (hr' : resolve p removed now r = some r') : Sound p id r' := by
  obtain ⟨rfl, hlasts⟩ := advance_eq_some.mp hr'
  by_cases hactive : r.status = .active
  · rw [waiveActive_of_active hactive] at hlasts ⊢
    have hwaived : Sound p id (EventEngine.waiveAll removed r) := h.waiveAll
    rcases finish_cases p now (r := EventEngine.waiveAll removed r) hactive with ⟨_, hfinish⟩ |
      ⟨_, time, _, _, hfinish⟩ | ⟨_, _, hfinish⟩
    · rw [hfinish] at hlasts ⊢
      exact hwaived.settledRecord hactive (by simp) hlasts
    · rw [hfinish] at hlasts ⊢
      exact hwaived.settledRecord hactive (by simp) hlasts
    · rwa [hfinish]
  · rwa [waiveActive_of_settled hactive, finish_of_settled hactive]

/-- A recipient that is still pending after the waivers was pending before them. -/
theorem lookup_of_waiveAll {recipient : Recipient}
    (hlookup : (waiveAll removed r).recipients.lookup generation = some recipient) (hpending : recipient.status = .pending) :
    r.recipients.lookup generation = some recipient := by
  rw [lookup_waiveAll] at hlookup
  obtain ⟨before, hbefore, rfl⟩ := Option.map_eq_some_iff.mp hlookup
  split at hpending
  · exact absurd hpending (by simp [waive])
  · next hnot => rw [if_neg hnot, hbefore]

theorem awaits_of_resolve (hr' : resolve p removed now r = some r') (h : r'.Awaits generation) : r.Awaits generation := by
  obtain ⟨hactive, recipient, hlookup, hpending⟩ := h
  obtain ⟨rfl, hactive', _⟩ := active_of_resolve hr' hactive
  exact ⟨hactive', recipient, lookup_of_waiveAll hlookup hpending, hpending⟩

theorem expects_of_resolve {name : String} (hr' : resolve p removed now r = some r') (h : r'.Expects name generation) :
    r.Expects name generation := by
  obtain ⟨hactive, recipient, hlookup, hpending, hname⟩ := h
  obtain ⟨rfl, hactive', _⟩ := active_of_resolve hr' hactive
  exact ⟨hactive', recipient, lookup_of_waiveAll hlookup hpending, hpending, hname⟩

/-- A generation whose removal is known is awaited by no event that has been read. -/
theorem not_awaits_of_resolve (hr' : resolve p removed now r = some r') {time : ℕ}
    (hremoved : removed.lookup generation = some time) (hle : time ≤ now) : ¬ r'.Awaits generation := by
  rintro ⟨hactive, recipient, hlookup, hpending⟩
  obtain ⟨_, _, _, hlater⟩ := active_of_resolve hr' hactive
  have hclean := clean_of_resolve hr' hactive generation recipient hlookup
  have hwaived : waivedAt removed r' generation recipient = some time :=
    waivedAt_eq_some.mpr ⟨hpending, hremoved, fun deadline hdeadline => lt_of_le_of_lt hle (hlater deadline hdeadline)⟩
  rw [hclean] at hwaived
  exact absurd hwaived (by simp)

theorem id_of_reading (h : EventInvariant p now s) (hread : s.reading p now id = some r) : r.id = id := by
  obtain ⟨r₀, hr₀, hresolve⟩ := Option.bind_eq_some_iff.mp hread
  exact ((h.sound id r₀ hr₀).resolve hresolve).id

/-- What was indexed before its normalization is indexed after it. -/
theorem Indexed.filed_resolve {v : EventView} (h : Indexed v) (hr : v.record = some r) :
    Indexed (filed (resolve p removed now r) v.delivery) where
  delivered generation := by
    simp only [filed]
    constructor
    · intro hsome
      by_contra hnot
      rw [if_neg hnot] at hsome
      exact absurd hsome (by simp)
    · intro hawaits
      rw [if_pos hawaits, h.delivered]
      obtain ⟨r', hr', hawaits⟩ := hawaits
      exact ⟨r, hr, awaits_of_resolve hr' hawaits⟩
  leased r' hr' generation recipient hactive hlookup hpending time htime := by
    have hawaits : ∃ r' ∈ resolve p removed now r, r'.Awaits generation := ⟨r', hr', hactive, recipient, hlookup, hpending⟩
    simp only [filed]
    rw [if_pos hawaits]
    obtain ⟨rfl, hactive', _⟩ := active_of_resolve hr' hactive
    exact h.leased r hr generation recipient hactive' (lookup_of_waiveAll hlookup hpending) hpending time htime
  deadline := rfl
  archive := rfl
  archiveDeadline := rfl

/-! ### Normalization -/

theorem Touches.reading (h : Touches id s s') {other : String} (hne : other ≠ id) :
    s'.reading p now other = s.reading p now other := by
  have hrecord : s'.record other = s.record other := congrArg EventView.record (h.others other hne)
  rw [EventStore.reading, hrecord, h.removed, EventStore.reading]

/-- The invariant after a function that works on one event. -/
theorem EventInvariant.touch (h : EventInvariant p now s) (htouches : Touches id s s')
    (hsound : ∀ r, s'.record id = some r → Sound p id r) (hindexed : Indexed (s'.event id))
    (hlive : ∀ r, s'.record id = some r → r.status = .active → 0 < r.pending)
    (howed : ∀ r name generation, s'.record id = some r → r.Expects name generation →
      s.subscriptions.lookup name = some generation ∨ (s.removed.lookup generation).isSome) :
    EventInvariant p now s' where
  sound other r hr := by
    by_cases hid : other = id
    · subst hid
      exact hsound r hr
    · exact h.sound other r ((congrArg EventView.record (htouches.others other hid)).symm.trans hr)
  indexed other := by
    by_cases hid : other = id
    · subst hid
      exact hindexed
    · rw [htouches.others other hid]
      exact h.indexed other
  live other r hr := by
    by_cases hid : other = id
    · subst hid
      exact hlive r hr
    · exact h.live other r ((congrArg EventView.record (htouches.others other hid)).symm.trans hr)
  retired generation := by
    rw [htouches.retired, htouches.removed]
    exact h.retired generation
  removedAt generation time htime := by
    rw [htouches.removed] at htime
    exact h.removedAt generation time htime
  owed other r name generation hr hexpects := by
    rw [htouches.subscriptions, htouches.removed]
    by_cases hid : other = id
    · subst hid
      exact howed r name generation hr hexpects
    · exact h.owed other r name generation ((congrArg EventView.record (htouches.others other hid)).symm.trans hr) hexpects

/-- Normalization of a record that was put into a store where the invariant holds. -/
theorem EventInvariant.normalize_put (h : EventInvariant env.policy env.now s) (htouches : Touches id s s')
    (hr : s'.record id = some r) (hsound : Sound env.policy id r) (hindexed : Indexed (s'.event id))
    (howed : ∀ name generation, r.Expects name generation →
      s.subscriptions.lookup name = some generation ∨ (s.removed.lookup generation).isSome) :
    EventInvariant env.policy env.now (normalize env r s').2 ∧ Touches id s (normalize env r s').2 ∧
      (EventEngine.normalize env r s').2.record id = resolve env.policy s.removed env.now r ∧
      (EventEngine.normalize env r s').1 = finish env.policy env.now (waiveActive s.removed r) := by
  obtain rfl := hsound.id
  obtain ⟨hfst, hevent, htouches'⟩ := normalize_spec hsound hindexed hr
  generalize EventEngine.normalize env r s' = result at hfst hevent htouches' ⊢
  rw [htouches.removed] at hevent hfst
  have hrecord : result.2.record r.id = resolve env.policy s.removed env.now r := congrArg EventView.record hevent
  refine ⟨?_, htouches.trans htouches', hrecord, hfst⟩
  refine h.touch (htouches.trans htouches') (fun r' hr' => ?_) ?_ (fun r' hr' hactive => ?_)
    fun r' name generation hr' hexpects => ?_
  · exact hsound.resolve (hrecord.symm.trans hr')
  · rw [hevent]
    exact hindexed.filed_resolve hr
  · exact (active_of_resolve (hrecord.symm.trans hr') hactive).2.2.1
  · exact howed name generation (expects_of_resolve (hrecord.symm.trans hr') hexpects)

theorem EventInvariant.touches_normalize (h : EventInvariant env.policy env.now s) (hr : s.record id = some r) :
    Touches id s (normalize env r s).2 :=
  (h.normalize_put (.refl id s) hr (h.sound id r hr) (h.indexed id) fun name generation => h.owed id r name generation hr).2.1

theorem EventInvariant.normalize (h : EventInvariant env.policy env.now s) (hr : s.record id = some r) :
    Sweeps env.policy env.now s (normalize env r s).2 ∧ (EventEngine.normalize env r s).2.removed = s.removed ∧
      (EventEngine.normalize env r s).2.record id = s.reading env.policy env.now id ∧
      (EventEngine.normalize env r s).1 = finish env.policy env.now (waiveActive s.removed r) := by
  obtain ⟨hinvariant, htouches, hrecord, hfst⟩ := h.normalize_put (.refl id s) hr (h.sound id r hr) (h.indexed id)
    fun name generation => h.owed id r name generation hr
  have hread : s.reading env.policy env.now id = resolve env.policy s.removed env.now r := by
    rw [EventStore.reading, hr, Option.bind_some]
  rw [← hread] at hrecord
  refine ⟨⟨htouches.config, htouches.subscriptions, hinvariant, fun other => ?_, fun other => ?_, fun generation => ?_⟩,
    htouches.removed, hrecord, hfst⟩
  · by_cases hid : other = id
    · subst hid
      rw [EventStore.reading, hrecord, htouches.removed]
      exact reading_resolve
    · exact htouches.reading hid
  · by_cases hid : other = id
    · exact Or.inr (hid ▸ hrecord)
    · exact Or.inl (congrArg EventView.record (htouches.others other hid))
  · exact Or.inl (by rw [htouches.removed])

end

end EffectMQ.EventEngine
