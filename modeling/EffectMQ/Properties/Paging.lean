import EffectMQ.Lifecycle.Events
import EffectMQ.Lifecycle.Exhaustion

/-!
# Paging through a history

A reader that passes each returned cursor back reads the chronicle of a generation in order, without gaps and
without repetitions, as long as the trim does not overtake it, and it is told when that happens.
-/

namespace EffectMQ

open Redis Transition

/-! ### A reader -/

/-- An entry that was appended after the position of a cursor. -/
def HistoryCursor.precedes (entry : StreamId × HistoryEntry) : HistoryCursor → Bool
  | .position _ sequence _ => sequence < entry.2.sequence
  | .other _ => false

/-- A page that was returned, and the store at the call. -/
structure PageRead where
  store : Store
  page : HistoryPage

/-- The engine, and the pages that a reader was given. -/
structure Reading where
  engine : Engine
  reads : List PageRead

/-- The cursor of the next call: the last one that was returned. -/
def Reading.cursor (R : Reading) : Option HistoryCursor := R.reads.getLast?.map fun read => read.page.cursor

/-- The pages one after the other. -/
def Reading.entries (R : Reading) : List (StreamId × HistoryEntry) := R.reads.flatMap fun read => read.page.entries

inductive ReaderAction
  | engine (c : Call)
  | read (c : Call) (limit : ℕ) (page : HistoryPage)

/-- The engine and a reader of one generation, which starts without a cursor and passes each returned cursor back as
long as no call fails. -/
def reading (x : TaskIdentity) (schemaId : String) : System Reading ReaderAction where
  initial R := engine.initial R.engine ∧ R.reads = []
  step R action R' :=
    match action with
    | .engine c => engine.step R.engine c R'.engine ∧ R'.reads = R.reads
    | .read c limit page => engine.step R.engine c R'.engine ∧ PageSize limit ∧
      historyRequest x schemaId R.cursor (some limit) = .ok c.op ∧
      historyResult x schemaId R.cursor (some limit) c.reply = .ok page ∧
      R'.reads = R.reads ++ [⟨R.engine.store, page⟩]

/-- What becomes of a call at a cursor while the generation is stored. -/
structure Resumes (x : TaskIdentity) (schemaId : String) (s : Store) (all : List (StreamId × HistoryEntry))
    (c : HistoryCursor) : Prop where
  overtaken : ∀ r, s.current x = some r → r.history.sequence < maxSafeInteger →
    (∃ entry ∈ all, c.precedes entry = true ∧ entry ∉ s.history x) →
    ∃ earliest, ∀ env limit, PageSize limit →
      readPage env s x schemaId (some c) limit = some (.error (.historyCursorExpired (some c) earliest)) ∧
      ∃ page, readPage env s x schemaId (some earliest) limit = some (.ok page) ∧
        page.entries = (s.history x).take limit
  delivered : ∀ r, s.current x = some r → r.history.sequence < maxSafeInteger →
    (∀ entry ∈ all, c.precedes entry = true → entry ∈ s.history x) →
    ∀ env limit, PageSize limit → ∃ page, readPage env s x schemaId (some c) limit = some (.ok page) ∧
      page.entries = ((s.history x).filter fun entry => c.precedes entry).take limit ∧
      (page.entries = [] → page.cursor = c)
  full : ∀ r, s.current x = some r → maxSafeInteger ≤ r.history.sequence →
    ∀ env limit, PageSize limit → readPage env s x schemaId (some c) limit = none

section

variable {env : Env} {x : TaskIdentity} {schemaId : String} {clock n limit : ℕ} {r : TaskRecord} {s : Store}
  {all : List (StreamId × HistoryEntry)}

theorem AppendOrder.precedes_cursorAt (h : AppendOrder x.id x.generation schemaId clock all) {i : ℕ}
    {entry : StreamId × HistoryEntry} (hentry : all[i]? = some entry) :
    (cursorAt x all n).precedes entry = true ↔ n ≤ i := by
  rw [cursorAt, HistoryCursor.precedes, decide_eq_true_eq, (h.entries i entry hentry).sequence, Nat.lt_succ_iff]

/-- What is left of a chronicle after a position. -/
theorem Chronicle.filter_precedes (h : Chronicle x.id x.generation schemaId clock (s.archived x r) all)
    (htrimmed : r.history.trimmed ≤ n) (hn : n ≤ all.length) :
    ((s.history x).filter fun entry => (cursorAt x all n).precedes entry) = all.drop n := by
  have hstream : s.history x = all.drop r.history.trimmed := h.stream
  rw [← h.filter_after htrimmed hn, hstream]
  refine List.filter_congr fun entry hentry => ?_
  obtain ⟨i, hi⟩ := List.mem_iff_getElem?.mp (List.mem_of_mem_drop hentry)
  rw [Bool.eq_iff_iff, h.precedes_cursorAt hi, decide_eq_true_eq, h.lt_positionAt hi hn]

/-- Something after a position is missing if and only if the trim has passed the position. -/
theorem Chronicle.missing_iff (h : Chronicle x.id x.generation schemaId clock (s.archived x r) all)
    (hn : n ≤ all.length) :
    (∃ entry ∈ all, (cursorAt x all n).precedes entry = true ∧ entry ∉ s.history x) ↔ n < r.history.trimmed := by
  have hstream : s.history x = all.drop r.history.trimmed := h.stream
  have hcount : all.length = r.history.sequence := h.count
  have htrimmed : r.history.trimmed = 0 ∨ r.history.trimmed < r.history.sequence := h.trimmed
  rw [hstream]
  constructor
  · rintro ⟨entry, hentry, hprecedes, hmissing⟩
    obtain ⟨i, hi, rfl⟩ := List.mem_iff_getElem.mp hentry
    have hle := (h.precedes_cursorAt (List.getElem?_eq_getElem hi)).mp hprecedes
    by_contra hlt
    refine hmissing (List.mem_iff_getElem.mpr ⟨i - r.history.trimmed, by simp only [List.length_drop]; omega, ?_⟩)
    rw [List.getElem_drop]
    congr 1
    omega
  · intro hlt
    have hentry : all[n]? = some all[n] := List.getElem?_eq_getElem (by omega)
    refine ⟨all[n], List.getElem_mem _, (h.precedes_cursorAt hentry).mpr (le_refl n), fun hmem => ?_⟩
    obtain ⟨j, hj, heq⟩ := List.mem_iff_getElem.mp hmem
    rw [List.getElem_drop] at heq
    simp only [List.length_drop] at hj
    -- the entries of a chronicle carry their positions
    have hsequence := (h.entries n _ hentry).sequence
    rw [← heq, (h.entries _ _ (List.getElem?_eq_getElem (by omega))).sequence] at hsequence
    omega

theorem Chronicle.resumes (h : Chronicle x.id x.generation r.schemaId clock (s.archived x r) all)
    (hr : s.current x = some r) (hversion : r.protocolVersion = 1) (hclock : clock ≤ maxDate)
    (hsound : s.HistorySound) (hmax : n < maxSafeInteger) (hn : n ≤ all.length) :
    Resumes x r.schemaId s all (cursorAt x all n) := by
  have hcount : all.length = r.history.sequence := h.count
  have htrimmed : r.history.trimmed = 0 ∨ r.history.trimmed < r.history.sequence := h.trimmed
  have hstream : s.history x = all.drop r.history.trimmed := h.stream
  have hmissing := h.missing_iff hn
  constructor
  · intro r' hr' hroom hmiss
    obtain rfl := Option.some.inj (hr.symm.trans hr')
    have hlt := hmissing.mp hmiss
    refine ⟨cursorAt x all r.history.trimmed, fun env limit hlimit =>
      ⟨?_, pageAt x all r.history.trimmed limit r.history.trimmed, ?_, ?_⟩⟩
    · rw [h.readPage_eq hr hversion hclock hsound env hmax hn hlimit, if_pos hroom, if_pos hlt]
    · rw [h.readPage_eq hr hversion hclock hsound env (by omega) (by omega) hlimit, if_pos hroom, if_neg (lt_irrefl _)]
    · rw [pageAt, hstream]
  · intro r' hr' hroom hall env limit hlimit
    obtain rfl := Option.some.inj (hr.symm.trans hr')
    have hle : ¬ n < r.history.trimmed := fun hlt => by
      obtain ⟨entry, hentry, hprecedes, hnot⟩ := hmissing.mpr hlt
      exact hnot (hall entry hentry hprecedes)
    refine ⟨pageAt x all n limit r.history.trimmed, ?_, ?_, ?_⟩
    · rw [h.readPage_eq hr hversion hclock hsound env hmax hn hlimit, if_pos hroom, if_neg hle]
    · rw [h.filter_precedes (not_lt.mp hle) hn, pageAt]
    · intro hnil
      have hnil : (all.drop n).take limit = [] := hnil
      rw [pageAt, hnil, List.length_nil, Nat.add_zero]
  · intro r' hr' hfull env limit hlimit
    obtain rfl := Option.some.inj (hr.symm.trans hr')
    rw [h.readPage_eq hr hversion hclock hsound env hmax hn hlimit, if_neg (not_lt.mpr hfull)]

/-- What a reader has seen of the chronicle. -/
structure Session (x : TaskIdentity) (schemaId : String) (R : Reading) (all : List (StreamId × HistoryEntry)) : Prop
    where
  counted : x.generation ≤ R.engine.store.generations x.key
  order : AppendOrder x.id x.generation schemaId R.engine.clock all
  chronicled : R.engine.store.ChronicledBy x R.engine.clock all
  schema : ∀ r, R.engine.store.current x = some r → r.schemaId = schemaId
  reads : ∀ read ∈ R.reads, ∃ n, read.page.cursor = cursorAt x all n ∧ n ≤ all.length ∧ n < maxSafeInteger
  more : ∀ read ∈ R.reads, read.page.hasMore = true ↔
    ∃ entry ∈ read.store.history x, read.page.cursor.precedes entry = true
  contiguous : ∀ first ∈ R.reads.head?, ∃ r n, first.store.current x = some r ∧
    first.store.history x <+: all.drop r.history.trimmed ∧ R.cursor = some (cursorAt x all n) ∧
    r.history.trimmed ≤ n ∧ n ≤ all.length ∧
    R.entries = (all.drop r.history.trimmed).take (n - r.history.trimmed)

theorem cursorAt_append (hn : n ≤ all.length) (added : List (StreamId × HistoryEntry)) :
    cursorAt x (all ++ added) n = cursorAt x all n := by
  rw [cursorAt, positionAt_append hn, cursorAt]

/-- The engine goes on, and so does the chronicle. -/
theorem Session.advance {R : Reading} {calls : List Call} {c : Call} {e : Engine} (h : Session x schemaId R all)
    (hrun : engine.Run calls R.engine) (hstep : engine.step R.engine c e) :
    ∃ added, Session x schemaId ⟨e, R.reads⟩ (all ++ added) := by
  obtain ⟨hcounted, hadvances⟩ := path_advances hrun (.single hstep) h.counted
  have hclock : R.engine.clock ≤ e.clock := hstep.2.1 ▸ hstep.1
  have hschema : ∀ r, e.store.current x = some r → r.schemaId = schemaId := fun r hr => by
    obtain ⟨r₀, hr₀, hadvance⟩ := hadvances r hr
    exact hadvance.schemaId.trans (h.schema r₀ hr₀)
  have hchronicle : ∃ added, AppendOrder x.id x.generation schemaId e.clock (all ++ added) ∧
      e.store.ChronicledBy x e.clock (all ++ added) := by
    cases hr : e.store.current x with
    | none =>
      refine ⟨[], by rw [List.append_nil]; exact h.order.mono hclock, fun r hr' => ?_⟩
      exact absurd (hr.symm.trans hr') (by simp)
    | some r =>
      obtain ⟨added, hadded⟩ := path_chronicled hrun (.single hstep) h.counted h.chronicled
      exact ⟨added, hschema r hr ▸ (hadded r hr).toAppendOrder, hadded⟩
  obtain ⟨added, horder, hchronicled⟩ := hchronicle
  refine ⟨added, hcounted, horder, hchronicled, hschema, fun read hread => ?_, h.more, fun first hfirst => ?_⟩
  · obtain ⟨n, hcursor, hn, hmax⟩ := h.reads read hread
    refine ⟨n, by rw [cursorAt_append hn, hcursor], hn.trans ?_, hmax⟩
    rw [List.length_append]
    exact Nat.le_add_right _ _
  · obtain ⟨r, n, hr, hstart, hcursor, htrimmed, hn, hentries⟩ := h.contiguous first hfirst
    have hdrop : (all ++ added).drop r.history.trimmed = all.drop r.history.trimmed ++ added :=
      List.drop_append_of_le_length (htrimmed.trans hn)
    refine ⟨r, n, hr, ?_, ?_, htrimmed, ?_, ?_⟩
    · rw [hdrop]
      exact hstart.trans (List.prefix_append _ _)
    · rw [cursorAt_append hn]
      exact hcursor
    · rw [List.length_append]
      exact hn.trans (Nat.le_add_right _ _)
    · rw [hdrop, List.take_append_of_le_length (by rw [List.length_drop]; omega)]
      exact hentries

/-- A page of the stored history, whether further entries exist, and the position after it. -/
theorem Chronicle.pageAt_more (h : Chronicle x.id x.generation r.schemaId clock (s.archived x r) all)
    (htrimmed : r.history.trimmed ≤ n) (hn : n ≤ all.length) :
    (pageAt x all n limit r.history.trimmed).hasMore = true ↔
      ∃ entry ∈ s.history x, (pageAt x all n limit r.history.trimmed).cursor.precedes entry = true := by
  have hlength : ((all.drop n).take limit).length = min limit (all.length - n) := by
    rw [List.length_take, List.length_drop]
  have hfilter := h.filter_precedes (n := n + ((all.drop n).take limit).length) (by omega) (by omega)
  simp only [pageAt, decide_eq_true_eq]
  constructor
  · intro hlt
    by_contra hnone
    have hnil : (s.history x).filter (fun entry =>
        (cursorAt x all (n + ((all.drop n).take limit).length)).precedes entry) = [] :=
      List.filter_eq_nil_iff.mpr fun entry hentry hprecedes => hnone ⟨entry, hentry, hprecedes⟩
    rw [hnil, eq_comm, List.drop_eq_nil_iff] at hfilter
    omega
  · rintro ⟨entry, hentry, hprecedes⟩
    have hmem : entry ∈ all.drop (n + ((all.drop n).take limit).length) := by
      rw [← hfilter]
      exact List.mem_filter.mpr ⟨hentry, hprecedes⟩
    have hpos := List.length_pos_of_mem hmem
    rw [List.length_drop] at hpos
    omega

/-- The page of a call starts where the reads ended, and the first one at the trim point. -/
theorem Session.page_eq {R : Reading} {page : HistoryPage} (h : Session x r.schemaId R all)
    (hr : R.engine.store.current x = some r) (hversion : r.protocolVersion = 1) (hclock : R.engine.clock ≤ maxDate)
    (hsound : R.engine.store.HistorySound) (hlimit : PageSize limit)
    (hpage : readPage env R.engine.store x r.schemaId R.cursor limit = some (.ok page)) :
    ∃ n, n ≤ all.length ∧ r.history.trimmed ≤ n ∧ page = pageAt x all n limit r.history.trimmed ∧
      r.history.sequence < maxSafeInteger ∧
      (R.reads = [] ∧ n = r.history.trimmed ∨ R.cursor = some (cursorAt x all n)) := by
  have hchronicle := h.chronicled r hr
  have hcount : all.length = r.history.sequence := hchronicle.count
  have htrimmed : r.history.trimmed = 0 ∨ r.history.trimmed < r.history.sequence := hchronicle.trimmed
  rcases List.eq_nil_or_concat R.reads with hnil | ⟨before, last, hlast⟩
  · rw [Reading.cursor, hnil, List.getLast?_nil, Option.map_none,
      hchronicle.readPage_first hr hversion hclock hsound env hlimit] at hpage
    split at hpage
    · next hroom =>
      exact ⟨r.history.trimmed, by omega, le_refl _, (Except.ok.inj (Option.some.inj hpage)).symm, hroom,
        Or.inl ⟨hnil, rfl⟩⟩
    · exact absurd hpage (by simp)
  · obtain ⟨n, hcursor, hn, hmax⟩ := h.reads last (by simp [hlast])
    have hposition : R.cursor = some (cursorAt x all n) := by
      rw [Reading.cursor, hlast, List.concat_eq_append, List.getLast?_concat, Option.map_some, hcursor]
    rw [hposition, hchronicle.readPage_eq hr hversion hclock hsound env hmax hn hlimit] at hpage
    split at hpage
    · next hroom =>
      split at hpage
      · exact absurd hpage (by simp)
      · next hle =>
        exact ⟨n, hn, not_lt.mp hle, (Except.ok.inj (Option.some.inj hpage)).symm, hroom, Or.inr hposition⟩
    · exact absurd hpage (by simp)

/-- A call that returns a page. -/
theorem Session.read {R : Reading} {calls : List Call} {page : HistoryPage} (h : Session x schemaId R all)
    (hrun : engine.Run calls R.engine) (hclock : R.engine.clock ≤ maxDate) (hlimit : PageSize limit)
    (hpage : readPage env R.engine.store x schemaId R.cursor limit = some (.ok page)) :
    Session x schemaId ⟨R.engine, R.reads ++ [⟨R.engine.store, page⟩]⟩ all := by
  obtain ⟨r, hr, rfl, _⟩ := current_of_page hpage
  have hchronicle := h.chronicled r hr
  have hversion := ((run_published hrun).admitted _ r (current_eq_some_iff.mp hr).1).protocolVersion
  have hcount : all.length = r.history.sequence := hchronicle.count
  have hstream : R.engine.store.history x = all.drop r.history.trimmed := hchronicle.stream
  obtain ⟨n, hn, htrim, rfl, hroom, hposition⟩ := h.page_eq hr hversion hclock (run_historySound hrun) hlimit hpage
  have hlength : ((all.drop n).take limit).length = min limit (all.length - n) := by
    rw [List.length_take, List.length_drop]
  refine ⟨h.counted, h.order, h.chronicled, h.schema, fun read hread => ?_, fun read hread => ?_, fun first hfirst => ?_⟩
  · rcases List.mem_append.mp hread with hread | hread
    · exact h.reads read hread
    · obtain rfl := List.mem_singleton.mp hread
      exact ⟨_, rfl, by omega, by omega⟩
  · rcases List.mem_append.mp hread with hread | hread
    · exact h.more read hread
    · obtain rfl := List.mem_singleton.mp hread
      exact hchronicle.pageAt_more htrim hn
  · generalize hread : (⟨R.engine.store, pageAt x all n limit r.history.trimmed⟩ : PageRead) = read at hfirst ⊢
    have hcursor' : Reading.cursor ⟨R.engine, R.reads ++ [read]⟩ =
        some (cursorAt x all (n + ((all.drop n).take limit).length)) := by
      rw [Reading.cursor, List.getLast?_concat, ← hread]
      rfl
    have hentries' : Reading.entries ⟨R.engine, R.reads ++ [read]⟩ = R.entries ++ (all.drop n).take limit := by
      simp [Reading.entries, pageAt, ← hread]
    rw [hcursor', hentries']
    rcases hposition with ⟨hnil, rfl⟩ | hcursor
    · rw [hnil] at hfirst
      obtain rfl := Option.some.inj hfirst
      refine ⟨r, r.history.trimmed + ((all.drop r.history.trimmed).take limit).length, ?_, ?_, rfl, ?_, ?_, ?_⟩
      · rw [← hread]
        exact hr
      · rw [← hread]
        exact hstream ▸ List.prefix_rfl
      · omega
      · omega
      · rw [Reading.entries, hnil, List.flatMap_nil, List.nil_append, Nat.add_sub_cancel_left, List.length_take,
          ← List.take_eq_take_min]
    · obtain ⟨head, hhead⟩ : ∃ head, head ∈ R.reads.head? := by
        cases hreads : R.reads with
        | nil => exact absurd hcursor (by simp [Reading.cursor, hreads])
        | cons head rest => exact ⟨head, rfl⟩
      obtain rfl : head = first := by
        rw [List.head?_append, Option.mem_def.mp hhead] at hfirst
        exact Option.some.inj hfirst
      obtain ⟨r₀, m, hr₀, hstart, hcursorₘ, htrimmed₀, hm, hentries⟩ := h.contiguous head hhead
      rw [hcursor, Option.some.injEq] at hcursorₘ
      obtain rfl : n = m := (HistoryCursor.position.inj hcursorₘ).2.1
      refine ⟨r₀, n + ((all.drop n).take limit).length, hr₀, hstart, rfl, by omega, by omega, ?_⟩
      have hsplit : all.drop n = (all.drop r₀.history.trimmed).drop (n - r₀.history.trimmed) := by
        rw [List.drop_drop, Nat.add_sub_cancel' htrimmed₀]
      rw [hentries, Nat.sub_add_comm htrimmed₀, List.take_add, ← hsplit, List.length_take, ← List.take_eq_take_min]

/-- A session before its first call. -/
theorem session_nil {e : Engine} {calls : List Call} (h : engine.Run calls e) (hr : e.store.current x = some r)
    (henabled : r.history.enabled = true) : ∃ all, Session x r.schemaId ⟨e, []⟩ all := by
  obtain ⟨all, hall⟩ := run_remembers h x r hr henabled
  have hgeneration := (((run_sane h).views x.key).generation r (current_eq_some_iff.mp hr).1).1
  refine ⟨all, ?_, hall.toAppendOrder, ?_, ?_, by simp, by simp, by simp⟩
  · exact (current_eq_some_iff.mp hr).2.ge.trans hgeneration.le
  · intro r' hr'
    obtain rfl := Option.some.inj (hr.symm.trans hr')
    exact hall
  · intro r' hr'
    obtain rfl := Option.some.inj (hr.symm.trans hr')
    rfl

end

/-- A reading makes a run of the engine. -/
theorem reading_run {x : TaskIdentity} {schemaId : String} {actions : List ReaderAction} {R : Reading}
    (h : (reading x schemaId).Run actions R) : ∃ calls, engine.Run calls R.engine := by
  refine h.invariant (I := fun R => ∃ calls, engine.Run calls R.engine) ?_ ?_
  · rintro R ⟨hinit, _⟩
    exact ⟨[], .nil hinit⟩
  · rintro R (c | ⟨c, limit, page⟩) R' ⟨calls, hrun⟩ hstep
    · exact ⟨_, hrun.snoc hstep.1⟩
    · exact ⟨_, hrun.snoc hstep.1⟩

/-- A reader that was given a page is in a session. -/
theorem reading_session {x : TaskIdentity} {schemaId : String} {actions : List ReaderAction} {R : Reading}
    (h : (reading x schemaId).Run actions R) :
    R.engine.clock ≤ maxDate → R.reads ≠ [] → ∃ all, Session x schemaId R all := by
  refine h.induction (P := fun _ R => R.engine.clock ≤ maxDate → R.reads ≠ [] → ∃ all, Session x schemaId R all) ?_ ?_
  · rintro R ⟨_, hnil⟩ _ hne
    exact absurd hnil hne
  · rintro actions R (c | ⟨c, limit, page⟩) ⟨e, reads⟩ hbefore ih hstep hdate hne
    · obtain ⟨hstep, rfl⟩ := hstep
      obtain ⟨calls, hrun⟩ := reading_run hbefore
      obtain ⟨all, hall⟩ := ih ((hstep.2.1 ▸ hstep.1 : R.engine.clock ≤ e.clock).trans hdate) hne
      exact (hall.advance hrun hstep).imp' (all ++ ·) fun _ hadded => hadded
    · obtain ⟨hstep, hlimit, hrequest, hresult, rfl⟩ := hstep
      obtain ⟨calls, hrun⟩ := reading_run hbefore
      have hclock := (hstep.2.1 ▸ hstep.1 : R.engine.clock ≤ e.clock).trans hdate
      have hpage : readPage c.env R.engine.store x schemaId R.cursor limit = some (.ok page) := by
        rw [readPage, hrequest]
        dsimp only
        rw [hstep.2.2]
        exact congrArg some hresult
      obtain ⟨r, hr, rfl, henabled⟩ := current_of_page hpage
      obtain ⟨all, hall⟩ : ∃ all, Session x r.schemaId R all := by
        by_cases hnil : R.reads = []
        · obtain ⟨all, hall⟩ := session_nil hrun hr henabled
          refine ⟨all, ?_⟩
          rwa [← hnil] at hall
        · exact ih hclock hnil
      exact ((hall.read hrun hclock hlimit hpage).advance hrun hstep).imp' (all ++ ·) fun _ hadded => hadded

/-- What a reader of a generation is given: the pages make a piece of the append order that starts with the oldest
entry at the first call, each says whether further entries existed, and every returned cursor resumes. -/
structure PagesWhole (x : TaskIdentity) (schemaId : String) (R : Reading) (first : PageRead)
    (all : List (StreamId × HistoryEntry)) : Prop where
  order : AppendOrder x.id x.generation schemaId R.engine.clock all
  chronicled : R.engine.store.ChronicledBy x R.engine.clock all
  contiguous : ∃ r, first.store.current x = some r ∧ first.store.history x <+: all.drop r.history.trimmed ∧
    R.entries <+: all.drop r.history.trimmed
  more : ∀ read ∈ R.reads, read.page.hasMore = true ↔
    ∃ entry ∈ read.store.history x, read.page.cursor.precedes entry = true
  resumes : ∀ read ∈ R.reads, Resumes x schemaId R.engine.store all read.page.cursor

/-- Every cursor of a session resumes. -/
theorem Session.resumes {x : TaskIdentity} {schemaId : String} {R : Reading} {all : List (StreamId × HistoryEntry)}
    {calls : List Call} (h : Session x schemaId R all) (hrun : engine.Run calls R.engine)
    (hdate : R.engine.clock ≤ maxDate) {read : PageRead} (hread : read ∈ R.reads) :
    Resumes x schemaId R.engine.store all read.page.cursor := by
  obtain ⟨n, hcursor, hn, hmax⟩ := h.reads read hread
  cases hr : R.engine.store.current x with
  | none => constructor <;> exact fun r hr' => absurd (hr.symm.trans hr') (by simp)
  | some r =>
    obtain rfl := h.schema r hr
    have hversion := ((run_published hrun).admitted _ r (current_eq_some_iff.mp hr).1).protocolVersion
    rw [hcursor]
    exact (h.chronicled r hr).resumes hr hversion hdate (run_historySound hrun) hmax hn

/-- Over every interleaving of the engine with a reader that passes each returned cursor back, the pages are a piece
of the append order without gaps and repetitions, and a cursor fails as expired exactly when something after it is
gone. -/
theorem run_paging {x : TaskIdentity} {schemaId : String} {actions : List ReaderAction} {R : Reading}
    {first : PageRead} (h : (reading x schemaId).Run actions R) (hdate : R.engine.clock ≤ maxDate)
    (hfirst : R.reads.head? = some first) : ∃ all, PagesWhole x schemaId R first all := by
  obtain ⟨calls, hrun⟩ := reading_run h
  obtain ⟨all, hall⟩ := reading_session h hdate (by
    rintro hnil
    rw [hnil] at hfirst
    exact absurd hfirst (by simp))
  refine ⟨all, hall.order, hall.chronicled, ?_, hall.more, fun read hread => hall.resumes hrun hdate hread⟩
  obtain ⟨r, n, hr, hstart, _, _, _, hentries⟩ := hall.contiguous first hfirst
  exact ⟨r, hr, hstart, hentries ▸ List.take_prefix _ _⟩

/-- The engine goes on beside the reader. -/
theorem reading_advance {x : TaskIdentity} {schemaId : String} {actions : List ReaderAction} {R : Reading} {c : Call}
    {e : Engine} (h : (reading x schemaId).Run actions R) (hstep : engine.step R.engine c e) :
    (reading x schemaId).Run (actions ++ [.engine c]) ⟨e, R.reads⟩ := h.snoc ⟨hstep, rfl⟩

/-- A run of the engine, before the reader starts. -/
theorem reading_of_run {x : TaskIdentity} {schemaId : String} {calls : List Call} {e : Engine}
    (h : engine.Run calls e) : (reading x schemaId).Run (calls.map .engine) ⟨e, []⟩ := by
  refine h.induction (P := fun calls e => (reading x schemaId).Run (calls.map .engine) ⟨e, []⟩) ?_ ?_
  · exact fun e hinit => .nil ⟨hinit, rfl⟩
  · intro calls e c e' _ ih hstep
    rw [List.map_append]
    exact reading_advance ih hstep

theorem store_of_readHistory {env : Env} {x : TaskIdentity} {schemaId : String} {sequence : Option ℕ}
    {position : Option StreamId} {count : Option ℚ} {s s' : Store} {reply : Reply}
    (h : exec env (.readHistory x.queue x.id x.generation schemaId sequence position count) s = .replied reply s') :
    s' = s := by
  obtain ⟨_, rfl⟩ := exec_replied h
  simp only [Op.run, readHistory]
  split
  · rfl
  · split
    · exact assertHistory_store _ _ _
    · split <;> exact assertHistory_store _ _ _

/-- A call that returns a page is a step of the reader. -/
theorem reading_read {x : TaskIdentity} {schemaId : String} {actions : List ReaderAction} {R : Reading} {env : Env}
    {limit : ℕ} {page : HistoryPage} (h : (reading x schemaId).Run actions R) (hclock : R.engine.clock ≤ env.clock)
    (hlimit : PageSize limit) (hpage : readPage env R.engine.store x schemaId R.cursor limit = some (.ok page)) :
    ∃ c, (reading x schemaId).Run (actions ++ [.read c limit page])
      ⟨⟨env.clock, R.engine.store⟩, R.reads ++ [⟨R.engine.store, page⟩]⟩ := by
  unfold readPage at hpage
  cases hrequest : historyRequest x schemaId R.cursor (some limit) with
  | error e =>
    rw [hrequest] at hpage
    exact absurd hpage (by simp)
  | ok op =>
    rw [hrequest] at hpage
    dsimp only at hpage
    split at hpage
    · next reply s hexec =>
      obtain ⟨sequence, position, rfl⟩ := op_of_request hrequest
      obtain rfl := store_of_readHistory hexec
      exact ⟨⟨env, _, reply⟩, h.snoc ⟨⟨hclock, rfl, hexec⟩, hlimit, hrequest, Option.some.inj hpage, rfl⟩⟩
    · exact absurd hpage (by simp)

/-- The first of two entries is read. -/
theorem run_paging_first : ∃ actions R first, (reading ⟨"mail", "a", 1⟩ "").Run actions R ∧
    R.reads.head? = some first ∧ first.page.hasMore = true ∧ ∃ all, PagesWhole ⟨"mail", "a", 1⟩ "" R first all := by
  obtain ⟨calls, e, h, hplayed⟩ := @play_run
    [(Env.at 5, .createTask { CreateArgs.default "mail" "a" with
      historyEnabled := true, maxHistoryEntries := some 2, schemaId := some "" })]
    (fun _ e => e.clock == 5 && (readPage (Env.at 6) e.store ⟨"mail", "a", 1⟩ "" none 1).any fun result =>
      match result with
      | .ok page => page.hasMore
      | .error _ => false) (by decide +kernel)
  rw [Bool.and_eq_true, Option.any_eq_true] at hplayed
  obtain ⟨hclock, result, hresult, hmore⟩ := hplayed
  have hclock : e.clock = 5 := by simpa using hclock
  cases result with
  | error error => exact absurd hmore (by simp)
  | ok page =>
    obtain ⟨c, hrun⟩ := reading_read (reading_of_run h) (show e.clock ≤ 6 by omega) ⟨le_refl 1, by decide⟩
      (Option.mem_def.mp hresult)
    exact ⟨_, _, _, hrun, rfl, hmore, run_paging hrun (by decide : 6 ≤ maxDate) rfl⟩

/-- A history that fills up after the first page: the call at the returned cursor aborts. -/
theorem cursor_aborts_when_full : ∃ actions R read r, (reading ⟨"queue", "a", 1⟩ "queue").Run actions R ∧
    R.reads = [read] ∧ R.engine.store.current ⟨"queue", "a", 1⟩ = some r ∧
    historyFault R.engine.store "queue" "a" = some "CORRUPT_HISTORY invalid sequence" ∧
    readPage (.at 2) R.engine.store ⟨"queue", "a", 1⟩ "queue" (some read.page.cursor) 1 = none := by
  obtain ⟨calls, e, r, hrun, _, hclock, hfilling⟩ := filling_run (maxSafeInteger - 4) (by decide)
  rw [show 3 + (maxSafeInteger - 4) = maxSafeInteger - 1 by decide] at hfilling
  have hdate : e.clock ≤ maxDate := by rw [hclock]; decide
  have hlimit : PageSize 1 := ⟨le_refl 1, by decide⟩
  have hroom : r.history.sequence < maxSafeInteger := by rw [hfilling.sequence]; decide
  -- one place is left: the first page is returned
  obtain ⟨all, hall⟩ := run_remembers hrun _ r hfilling.current hfilling.enabled
  have hfirst := hall.readPage_first hfilling.current hfilling.version hdate (run_historySound hrun) (.at 2) hlimit
  rw [if_pos hroom, hfilling.schemaId] at hfirst
  obtain ⟨c, hread⟩ := reading_read (reading_of_run hrun) (show e.clock ≤ 2 from hclock.le) hlimit hfirst
  -- the entry that takes it
  obtain ⟨entry, s', r', hexec, hfull⟩ := hfilling.step (run_historySound hrun) (by decide)
  have hstep : engine.step ⟨2, e.store⟩ ⟨.at 2, _, _⟩ ⟨2, s'⟩ := ⟨le_refl 2, rfl, hexec⟩
  have hfilled := reading_advance hread hstep
  rw [show maxSafeInteger - 1 + 1 = maxSafeInteger by decide] at hfull
  obtain ⟨calls', hrun'⟩ := reading_run hfilled
  obtain ⟨all', hsession⟩ := reading_session hfilled (by decide : 2 ≤ maxDate) (by simp)
  refine ⟨_, _, _, r', hfilled, rfl, hfull.current, historyFault_of_full hfull.current hfull.enabled hfull.sequence.ge, ?_⟩
  exact (hsession.resumes hrun' (by decide : 2 ≤ maxDate) (List.mem_singleton_self _)).full r' hfull.current
    hfull.sequence.ge (.at 2) 1 hlimit

end EffectMQ
