import EffectMQ.Lifecycle.Line
import EffectMQ.Lifecycle.Run

/-!
# The wait list over one invocation

A sweep only adds to a wait list, and adds the delayed tasks whose time has come in the order of their times. What an
invocation does after its sweep takes out at most one id, the one that it leases or removes.
-/

namespace EffectMQ

open Redis Transition

variable {env : Env} {b b' : Busy} {s s' : Store} {act : EngineAction} {queue id : String}

theorem EngineAction.IsSweep.not_serves (h : act.IsSweep) (k : TaskKey) : ¬ act.Serves k := by
  rintro (⟨leaseToken, lockTimeout, rfl⟩ | rfl | ⟨g, rfl⟩) <;> exact h

/-- Without a lease and without a removal, newcomers join a line and nobody leaves it. -/
theorem EnginePath.line_grows {P : EngineAction → Prop} (h : EnginePath env P b s b' s') (hs : Sane env.now s)
    (hP : ∀ act, P act → ∀ id, ¬ act.Serves (queue, id)) : s.line queue <+: s'.line queue := by
  refine h.preserves (I := fun _ s' => s.line queue <+: s'.line queue) hs List.prefix_rfl ?_
  intro b t act b' t' ht hgrown hstep hact
  rcases hstep.line ht queue with heq | ⟨id, hserves, _, _⟩ | ⟨id, _, _, heq⟩
  · rwa [heq]
  · exact absurd hserves (hP act hact id)
  · rw [heq]
    exact hgrown.trans (List.prefix_append _ _)

theorem sweep_line (hs : Sane env.now s) (op : Op) (queue : String) : s.line queue <+: (op.swept env s).line queue :=
  (swept_path hs op).line_grows hs fun _ hact id => hact.not_serves (queue, id)

/-! ### Delayed tasks -/

/-- A delayed task whose turn comes goes to the end of the line. -/
theorem moveToList_line {w : World} (hs : Sane env.now w.store)
    (hplace : (w.store.view (queue, id)).place = some .scheduled) :
    (moveToList env queue id (some .wait) 0 false none w).store.line queue = w.store.line queue ++ [id] := by
  have hlocal := local_moveToList env (hs.listed queue id) (some .wait) 0 false (by simp) none
  have hout : id ∉ w.store.line queue := fun hmem => by
    rw [hs.mem_line.mp hmem] at hplace
    exact absurd hplace (by simp)
  have hin : id ∈ (moveToList env queue id (some .wait) 0 false none w).store.line queue := by
    rw [← List.count_pos_iff, ← waiting_view, hlocal.view_self, TaskView.waiting_move]
    simp
  rcases hlocal.line (fun hmem => absurd hmem hout) queue with heq | ⟨_, hmem, _⟩ | ⟨_, _, heq⟩
  · rw [heq] at hin
    exact absurd hin hout
  · exact absurd hmem hout
  · exact heq

theorem place_of_score {v : TaskView} {now : ℚ} (hv : v.Consistent now) {l : TaskList} {t : ℚ} (h : v.score l = some t) :
    v.place = some l := ((hv.listed.score l).mp (by rw [h]; rfl)).1

/-- Delayed tasks join the line one after the other. -/
theorem promote_line (items : List String) (hnodup : items.Nodup) {w : World} (hs : Sane env.now w.store)
    (hdue : ∀ id ∈ items, TaskView.Due env ((w.store.view (queue, id)).score .scheduled)) :
    (items.foldl (fun w item => moveToList env queue item (some .wait) 0 false none w) w).store.line queue =
        w.store.line queue ++ items ∧
      ∀ id, id ∉ items → ((items.foldl (fun w item => moveToList env queue item (some .wait) 0 false none w) w).store.view
        (queue, id)) = w.store.view (queue, id) := by
  induction items generalizing w with
  | nil => exact ⟨(List.append_nil _).symm, fun _ _ => rfl⟩
  | cons item rest ih =>
    obtain ⟨hitem, hrest⟩ := List.nodup_cons.mp hnodup
    obtain ⟨t, ht, hle⟩ := hdue item List.mem_cons_self
    have hlocal := local_moveToList env (hs.listed queue item) (some .wait) 0 false (by simp) none
    have hview : ∀ id, id ≠ item → ((moveToList env queue item (some .wait) 0 false none w).store.view (queue, id)) =
        w.store.view (queue, id) := fun id hid => hlocal.view_of_ne fun h => hid (Prod.mk.inj h).2
    have hstep : EngineStep env none w.store (.task (queue, item) .promote) none
        (moveToList env queue item (some .wait) 0 false none w).store :=
      .task ⟨record_of_score (hs.views (queue, item)) ht, t, ht, hle⟩ trivial hlocal False.elim
    obtain ⟨hline, hothers⟩ := ih hrest (hstep.sane hs) fun id hid => by
      rw [hview id fun heq => hitem (heq ▸ hid)]
      exact hdue id (List.mem_cons_of_mem _ hid)
    rw [List.foldl_cons]
    refine ⟨?_, fun id hid => ?_⟩
    · rw [hline, moveToList_line hs (place_of_score (hs.views (queue, item)) ht), List.append_assoc]
      rfl
    · rw [hothers id fun hmem => hid (List.mem_cons_of_mem _ hmem)]
      exact hview id fun heq => hid (heq ▸ List.mem_cons_self)

/-- The delayed tasks that a sweep finds due go to the end of the line in their order. -/
theorem syncDelayed_line {w : World} (hs : Sane env.now w.store) :
    ∃ items, (∀ id ∈ items, id ∈ (w.store.lists queue).scheduled.rangeByScore env.now w.remaining) ∧
      (items = [] ∨ items = (w.store.lists queue).scheduled.rangeByScore env.now w.remaining) ∧
      (syncDelayed env queue w).store.line queue = w.store.line queue ++ items ∧
      ∀ id, id ∉ items → (syncDelayed env queue w).store.view (queue, id) = w.store.view (queue, id) := by
  unfold syncDelayed
  split
  · exact ⟨[], by simp, Or.inl rfl, (List.append_nil _).symm, fun _ _ => rfl⟩
  · dsimp only
    have hdue : ∀ id ∈ (w.store.lists queue).scheduled.rangeByScore env.now w.remaining,
        TaskView.Due env ((w.store.view (queue, id)).score .scheduled) := fun id hid => by
      obtain ⟨t, ht, _, hle⟩ := SortedSet.score_of_mem_rangeByScore hid
      exact ⟨t, ht, hle⟩
    obtain ⟨hline, hothers⟩ := promote_line (w := w.spend _) _ (SortedSet.rangeByScore_nodup _ _ _) hs hdue
    exact ⟨_, fun _ h => h, Or.inr rfl, hline, hothers⟩

/-- Of two delayed tasks, the second does not overtake the first. -/
inductive Store.InTurn (s : Store) (queue x y : String) (dueX dueY : ℚ) : Prop
  | delayed (hx : (s.view (queue, x)).score .scheduled = some dueX) (hy : (s.view (queue, y)).score .scheduled = some dueY)
  | first (hx : x ∈ s.line queue) (hy : (s.view (queue, y)).score .scheduled = some dueY)
  | both (h : [x, y].Sublist (s.line queue))
  | never (hx : (s.view (queue, x)).score .scheduled = some dueX) (hneg : dueX < 0)

/-- The other sweeps leave a delayed task where it is. -/
theorem EngineStep.score_of_upkeep (hstep : EngineStep env b s act b' s') (hs : Sane env.now s) (hact : act.IsUpkeep)
    {k : TaskKey} {t : ℚ} (h : (s.view k).score .scheduled = some t) : (s'.view k).score .scheduled = some t := by
  rcases hstep.view k with ⟨_, hview⟩ | ⟨a, hon, henabled, hafter⟩
  · rw [hview]
    exact h
  · obtain ⟨r, hr, hplace⟩ := record_of_score (hs.views k) h
    have ho : r.outcome = none := ((hs.views k).placed r hr).outcome_eq_none (Or.inr (Or.inl hplace))
    have hidle : ¬ ∃ r', (s.view k).Running r' := by
      rintro ⟨r', hrunning⟩
      obtain rfl := Option.some.inj (hr.symm.trans hrunning.record)
      exact absurd (hplace.symm.trans hrunning.place) (by simp)
    have hlive : ∀ r', ¬ (s.view k).Settled r' := by
      intro r' hsettled
      obtain rfl := Option.some.inj (hr.symm.trans hsettled.record)
      exact absurd hsettled.outcome (by simp [ho])
    rcases EngineAction.on_cases hon with rfl | ⟨args, replacedTask, holder, rfl, _⟩ | ⟨x, rfl, _⟩ |
      ⟨holder, x, rfl, _, rfl⟩
    · rw [hafter]
      cases a with
      | dropDate | expireDeadLetter => exact h
      | expireResult g held =>
        simp only [TaskAction.apply, TaskView.expireResult]
        split <;> exact h
      | expireTerminal g =>
        simp only [TaskAction.apply, TaskView.expireTerminal, TaskView.setDates]
        split <;> simpa [TaskView.unindexTerminal] using h
      | expireTask => exact absurd henabled.choose_spec.1 (hlive _)
      | holdDate => exact absurd henabled.1.choose_spec.1 (hlive _)
      | retry | fail => exact absurd henabled.1 hidle
      | create | promote | lease | renew | release | succeed | progress | refile | replace | remove | forget | revoke =>
        exact absurd hact id
    · exact absurd hact id
    · exact absurd hact id
    · exact absurd henabled.choose_spec (hlive _)

section

variable {x y : String} {dueX dueY : ℚ}

theorem Store.InTurn.upkeep (h : s.InTurn queue x y dueX dueY) (hs : Sane env.now s)
    (hpath : EnginePath env EngineAction.IsUpkeep b s b' s') : s'.InTurn queue x y dueX dueY := by
  have hline : s.line queue <+: s'.line queue :=
    hpath.line_grows hs fun _ hact id => hact.isSweep.not_serves (queue, id)
  have hscore : ∀ {k : TaskKey} {t : ℚ}, (s.view k).score .scheduled = some t → (s'.view k).score .scheduled = some t :=
    fun {k t} ht => hpath.preserves (I := fun _ s => (s.view k).score .scheduled = some t) hs ht
      fun _ _ _ _ _ hs ht hstep hact => hstep.score_of_upkeep hs hact ht
  cases h with
  | delayed hx hy => exact .delayed (hscore hx) (hscore hy)
  | first hx hy => exact .first (hline.subset hx) (hscore hy)
  | both h => exact .both (h.trans hline.sublist)
  | never hx hneg => exact .never (hscore hx) hneg

theorem Store.InTurn.syncDelayed {w : World} (h : w.store.InTurn queue x y dueX dueY) (hs : Sane env.now w.store)
    (hbefore : Before (x, dueX) (y, dueY)) : (syncDelayed env queue w).store.InTurn queue x y dueX dueY := by
  obtain ⟨items, hitems, hall, hline, hothers⟩ := @syncDelayed_line env queue w hs
  have hgrown : w.store.line queue <+: (EffectMQ.syncDelayed env queue w).store.line queue := by
    rw [hline]
    exact List.prefix_append _ _
  have hin : ∀ z, z ∈ items → z ∈ (EffectMQ.syncDelayed env queue w).store.line queue := fun z hz => by
    rw [hline]
    exact List.mem_append_right _ hz
  have hstays : ∀ {z : String} {t : ℚ}, z ∉ items → (w.store.view (queue, z)).score .scheduled = some t →
      ((EffectMQ.syncDelayed env queue w).store.view (queue, z)).score .scheduled = some t := fun hz ht => by
    rw [hothers _ hz]
    exact ht
  -- whoever is past its time is not reached by a range that starts at zero
  have hnever : ∀ {z : String} {t : ℚ}, (w.store.view (queue, z)).score .scheduled = some t → t < 0 → z ∉ items := by
    intro z t ht hneg hz
    obtain ⟨t', ht', hpos, _⟩ := SortedSet.score_of_mem_rangeByScore (hitems z hz)
    obtain rfl : t = t' := Option.some.inj (ht.symm.trans ht')
    exact absurd hneg (not_lt.mpr hpos)
  cases h with
  | delayed hx hy =>
    by_cases hneg : dueX < 0
    · exact .never (hstays (hnever hx hneg) hx) hneg
    · by_cases hyi : y ∈ items
      · refine .both ?_
        rcases hall with rfl | rfl
        · exact absurd hyi List.not_mem_nil
        · rw [hline]
          exact (SortedSet.sublist_rangeByScore hx hy hbefore (not_lt.mp hneg) hyi).trans (List.sublist_append_right _ _)
      · by_cases hxi : x ∈ items
        · exact .first (hin x hxi) (hstays hyi hy)
        · exact .delayed (hstays hxi hx) (hstays hyi hy)
  | first hx hy =>
    by_cases hyi : y ∈ items
    · refine .both ?_
      rw [hline]
      exact (List.singleton_sublist.mpr hx).append (List.singleton_sublist.mpr hyi)
    · exact .first (hgrown.subset hx) (hstays hyi hy)
  | both h => exact .both (h.trans hgrown.sublist)
  | never hx hneg => exact .never (hstays (hnever hx hneg) hx) hneg

theorem Store.InTurn.sweep (h : s.InTurn queue x y dueX dueY) (hs : Sane env.now s)
    (hbefore : Before (x, dueX) (y, dueY)) : (sweep env queue s).InTurn queue x y dueX dueY := by
  have hturns : ∀ (cursor : ℕ) (offsets : List ℕ) (w : World), Sane env.now w.store →
      w.store.InTurn queue x y dueX dueY →
      (offsets.foldl (syncTurn env queue cursor) w).store.InTurn queue x y dueX dueY := by
    intro cursor offsets
    induction offsets with
    | nil => exact fun _ _ h => h
    | cons offset rest ih =>
      intro w hw hturn
      rw [List.foldl_cons]
      refine ih _ ((syncTurn_path cursor offset hw).sane hw) ?_
      unfold syncTurn
      split
      · exact hturn
      · split
        · next sync hsync =>
          rcases List.mem_cons.mp (List.mem_of_getElem? hsync) with rfl | htail
          · exact hturn.syncDelayed hw hbefore
          · exact hturn.upkeep hw (upkeep_path htail hw)
        · exact hturn
  have hall := hturns (s.maintenanceCursor queue) (List.range syncers.length) (World.begin env s) hs h
  cases hall with
  | delayed hx hy => exact .delayed hx hy
  | first hx hy => exact .first hx hy
  | both h => exact .both h
  | never hx hneg => exact .never hx hneg

end

/-- Delayed tasks enter the line in the order of their times, ties in the order of their ids. -/
theorem sweep_promotes (hs : Sane env.now s) {x y : String} {dueX dueY : ℚ}
    (hx : (s.lists queue).scheduled.score x = some dueX) (hy : (s.lists queue).scheduled.score y = some dueY)
    (hbefore : Before (x, dueX) (y, dueY)) (hx' : x ∈ (sweep env queue s).line queue)
    (hy' : y ∈ (sweep env queue s).line queue) : [x, y].Sublist ((sweep env queue s).line queue) := by
  have hs' := (sweep_path hs queue).sane hs
  have hgone : ∀ {z : String} {t : ℚ}, z ∈ (sweep env queue s).line queue →
      ¬ ((sweep env queue s).view (queue, z)).score .scheduled = some t := by
    intro z t hz ht
    have hplace := (place_of_score (hs'.views (queue, z)) ht).symm.trans (hs'.mem_line.mp hz)
    exact absurd hplace (by simp)
  have hturn : s.InTurn queue x y dueX dueY := .delayed hx hy
  cases hturn.sweep hs hbefore with
  | delayed hx _ => exact absurd hx (hgone hx')
  | first _ hy => exact absurd hy (hgone hy')
  | both h => exact h
  | never hx _ => exact absurd hx (hgone hx')

/-! ### The whole invocation -/

/-- The id that an invocation takes out of the line of a queue, if it takes one. -/
def Op.Serves (queue id : String) (reply : Reply) (op : Op) : Prop :=
  (∃ leaseToken lockTimeout task, op = .takeTask queue leaseToken lockTimeout ∧ reply = .leased leaseToken id task) ∨
    op = .removeTask queue id ∨ op = .forceRemoveTask queue id

/-- When only one id of the queue is served, the others keep their places. -/
theorem EnginePath.line_serving {P : EngineAction → Prop} (h : EnginePath env P b s b' s') (hs : Sane env.now s)
    (hP : ∀ act, P act → ∀ z, act.Serves (queue, z) → z = id) :
    s.line queue <+: s'.line queue ∨ (s.line queue).filter (fun z => z ≠ id) <+: s'.line queue := by
  refine h.preserves (I := fun _ s' => s.line queue <+: s'.line queue ∨
    (s.line queue).filter (fun z => z ≠ id) <+: s'.line queue) hs (Or.inl List.prefix_rfl) ?_
  intro b t act b' t' ht hgrown hstep hact
  rcases hstep.line ht queue with heq | ⟨z, hserves, _, heq⟩ | ⟨z, _, _, heq⟩
  · rwa [heq]
  · obtain rfl := hP act hact z hserves
    rw [heq]
    refine Or.inr ?_
    rcases hgrown with hgrown | hgrown
    · exact hgrown.filter _
    · have hagain := hgrown.filter fun w => decide (w ≠ z)
      rwa [List.filter_filter, List.filter_congr fun w _ => Bool.and_self _] at hagain
  · rw [heq]
    exact hgrown.imp (fun h => h.trans (List.prefix_append _ _)) fun h => h.trans (List.prefix_append _ _)

/-- What an invocation leaves of the line of a queue: all of it, or all but the id it serves. -/
theorem exec_line (hs : Sane env.now s) {op : Op} {reply : Reply} (h : exec env op s = .replied reply s')
    (queue : String) : s.line queue <+: s'.line queue ∨
      ∃ id, op.Serves queue id reply ∧ (s.line queue).filter (fun z => z ≠ id) <+: s'.line queue := by
  have hsweep := sweep_line hs op queue
  have hm := (swept_path hs op).sane hs
  have heffect := exec_effect hs h
  have hserving : ∀ (P : EngineAction → Prop) (id : String), EnginePath env P none (op.swept env s) none s' →
      (∀ act, P act → ∀ z, act.Serves (queue, z) → z = id ∧ op.Serves queue id reply) →
      s.line queue <+: s'.line queue ∨
        ∃ id, op.Serves queue id reply ∧ (s.line queue).filter (fun z => z ≠ id) <+: s'.line queue := by
    intro P id hpath hP
    by_cases hop : op.Serves queue id reply
    · rcases hpath.line_serving hm fun act hact z hz => (hP act hact z hz).1 with hall | hbut
      · exact Or.inl (hsweep.trans hall)
      · exact Or.inr ⟨id, hop, (hsweep.filter _).trans hbut⟩
    · exact Or.inl (hsweep.trans (hpath.line_grows hm fun act hact z hz => hop (hP act hact z hz).2))
  have hquiet : (∀ act, op.Does (op.swept env s) act → ∀ z, ¬ act.Serves (queue, z)) →
      s.line queue <+: s'.line queue := fun hP =>
    hsweep.trans (heffect.path.line_grows hm hP)
  cases heffect with
  | refused | answered => exact Or.inl hsweep
  | offered hvalid hoffered =>
    refine Or.inl (hquiet ?_)
    rintro act (⟨_, _, rfl⟩ | ⟨rfl, _⟩ | ⟨_, rfl⟩) z (⟨_, _, heq⟩ | heq | ⟨_, heq⟩) <;> exact absurd heq (by simp)
  | @leased q leaseToken id lockTimeout task _ hhead htask hstep =>
    refine hserving (fun act => act = .task (q, id) (.lease leaseToken lockTimeout)) id (.single hstep rfl) ?_
    rintro act rfl z (⟨token, ttl, heq⟩ | heq | ⟨g, heq⟩)
    · obtain ⟨hk, -⟩ := EngineAction.task.inj heq
      obtain ⟨rfl, rfl⟩ := Prod.mk.inj hk
      exact ⟨rfl, Or.inl ⟨_, _, _, rfl, rfl⟩⟩
    · exact absurd heq (by simp)
    · exact absurd heq (by simp)
  | @removed q id _ hidle hheld hpath =>
    refine hserving _ id hpath ?_
    rintro act (rfl | hrelease) z hz
    · rcases hz with ⟨_, _, heq⟩ | heq | ⟨_, heq⟩
      · exact absurd heq (by simp)
      · obtain ⟨rfl, rfl⟩ := Prod.mk.inj (EngineAction.task.inj heq).1
        exact ⟨rfl, Or.inr (Or.inl rfl)⟩
      · exact absurd heq (by simp)
    · exact absurd hz (hrelease.isSweep.not_serves _)
  | @forced q id t _ hrevoke hpath =>
    have hall := (EnginePath.single (P := fun act => act = .task (q, id) .revoke) hrevoke rfl).mono
      (Q := fun act => act = .task (q, id) .revoke ∨
        EngineAction.IsForcedRemoval ((Op.swept env s (.forceRemoveTask q id)).identity q id) act) fun _ h => Or.inl h
    refine hserving _ id (hall.trans (hpath.mono fun _ h => Or.inr h)) ?_
    rintro act (rfl | rfl | hrelease) z hz
    · rcases hz with ⟨_, _, heq⟩ | heq | ⟨_, heq⟩ <;> exact absurd heq (by simp)
    · rcases hz with ⟨_, _, heq⟩ | heq | ⟨_, heq⟩
      · exact absurd heq (by simp)
      · exact absurd heq (by simp)
      · have hx := EngineAction.forget.inj heq
        obtain ⟨rfl, rfl, -⟩ := TaskIdentity.mk.inj hx
        exact ⟨rfl, Or.inr (Or.inr rfl)⟩
    · exact absurd hz (hrelease.isSweep.not_serves _)
  | succeeded howner hends =>
    refine Or.inl (hsweep.trans (hends.path.line_grows hm ?_))
    rintro act (rfl | hrelease) z hz
    · rcases hz with ⟨_, _, heq⟩ | heq | ⟨_, heq⟩ <;> exact absurd heq (by simp)
    · exact hrelease.isSweep.not_serves _ hz
  | failed howner ha hends =>
    refine Or.inl (hsweep.trans (hends.path.line_grows hm ?_))
    rintro act (rfl | hrelease) z hz
    · rcases ha with rfl | ⟨held, rfl⟩ <;> rcases hz with ⟨_, _, heq⟩ | heq | ⟨_, heq⟩ <;> exact absurd heq (by simp)
    · exact hrelease.isSweep.not_serves _ hz
  | renewed hstep | released hstep | progressed _ hstep =>
    refine Or.inl (hsweep.trans ((EnginePath.single (P := fun act => ∀ z, ¬ act.Serves (queue, z)) hstep ?_).line_grows hm
      fun _ h => h))
    rintro z (⟨_, _, heq⟩ | heq | ⟨_, heq⟩) <;> exact absurd heq (by simp)
  | scheduled _ _ hop hreply hstep =>
    refine Or.inl (hsweep.trans ((EnginePath.single (P := fun act => ∀ z, ¬ act.Serves (queue, z)) hstep ?_).line_grows hm
      fun _ h => h))
    rintro z (⟨_, _, heq⟩ | heq | ⟨_, heq⟩) <;> exact absurd heq (by simp)

end EffectMQ
