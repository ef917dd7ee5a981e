import EffectMQ.TaskEngine.Keys

/-!
# Keys of different tasks

The first word after the queue and the last words after the id tell almost all keys of a queue apart. The record of an id
is an exception, because ids are not escaped: an id that reads as another id with a generation and a last word has its
record under the key of that generation. Generations of more than fourteen digits are the other: what is written of them
is rounded.
-/

namespace EffectMQ

open Separator

/-- What is done at one key leaves the other alone. -/
def Slot.Independent (queue : String) (a b : Slot) : Prop :=
  ∀ types types' : String → Option RedisType, (∀ key, key ≠ a.key queue → types' key = types key) →
    types' (b.key queue) = types (b.key queue)

section

variable {queue : String} {a b : Slot} {id id' : String} {g g' : ℕ} {k k' : GenerationKey}

/-! ### The words of a key -/

namespace QueueKey

/-- The key without the queue. -/
def text (k : QueueKey) : String := k.key ""

def all : List QueueKey :=
  [generations, created, delayed, wait, success, failed, active, events, eventMetadata, taskExpiry, resultExpiry,
    terminalExpiry, deadLetter, deadLetterExpiry, retentionContinuation, maintenanceCursor]

theorem mem_all (k : QueueKey) : k ∈ all := by cases k <;> decide

theorem key_eq (k : QueueKey) (queue : String) : k.key queue = queue ++ k.text := by
  cases k <;> exact congrArg (queue ++ ·) (by decide)

theorem text_inj {k k' : QueueKey} (h : k.text = k'.text) : k = k' :=
  List.inj_on_of_nodup_map (f := text) (by decide : (all.map text).Nodup) k.mem_all k'.mem_all h

end QueueKey
namespace GenerationKey

/-- What follows the first word. -/
theorem key_eq (k : GenerationKey) (queue id : String) (g : ℕ) :
    k.key queue id g = queue ++ ":task:" ++ (id ++ ":" ++ k.generationText g ++ ":" ++ k.word) := by
  cases k <;>
    simp only [key, historyKey, retentionHoldersKey, retainedTasksKey, taskHash, generationText, word,
      String.append_assoc] <;> rfl

theorem colon_notMem_generationText (k : GenerationKey) (g : ℕ) : ':' ∉ (k.generationText g).toList := by
  cases k with
  | history => exact colon_notMem_repr g
  | retentionHolders | retainedTasks => exact colon_notMem_luaNumber g

theorem generationText_inj (hg : g < 10 ^ 14) (h : k.generationText g = k.generationText g') : g = g' := by
  cases k with
  | history => exact Nat.repr_inj.mp h
  | retentionHolders | retainedTasks => exact luaNumber_inj hg h

theorem colon_notMem_word (k : GenerationKey) : ':' ∉ k.word.toList := by cases k <;> decide

theorem word_inj (h : k.word = k'.word) : k = k' := by
  cases k <;> cases k' <;> first | rfl | exact absurd h (by decide)

end GenerationKey

/-- The last word is read off from the end. -/
theorem last_word_inj {s s' w w' : String} (hw : ':' ∉ w.toList) (hw' : ':' ∉ w'.toList)
    (h : s ++ ":" ++ w = s' ++ ":" ++ w') : s = s' ∧ w = w' := by
  have hlist := congrArg String.toList h
  simp only [String.toList_append, show ":".toList = [':'] from rfl, List.append_assoc, List.singleton_append] at hlist
  obtain ⟨hrest, hword⟩ := last_inj hw hw' hlist
  exact ⟨String.toList_inj.mp hrest, String.toList_inj.mp hword⟩

theorem generation_inj
    (h : id ++ ":" ++ k.generationText g ++ ":" ++ k.word = id' ++ ":" ++ k'.generationText g' ++ ":" ++ k'.word) :
    k = k' ∧ id = id' ∧ k.generationText g = k'.generationText g' := by
  obtain ⟨hrest, hword⟩ := last_word_inj k.colon_notMem_word k'.colon_notMem_word h
  obtain ⟨hid, hgeneration⟩ :=
    last_word_inj (k.colon_notMem_generationText g) (k'.colon_notMem_generationText g') hrest
  exact ⟨GenerationKey.word_inj hword, hid, hgeneration⟩

namespace Slot

/-- The first word after the queue. -/
def head (s : Slot) : List Char := ((s.key "").toList.drop 1).takeWhile (· ≠ ':')

theorem key_eq (s : Slot) (queue : String) : s.key queue = queue ++ s.key "" := by
  cases s with
  | queueWide k => exact k.key_eq queue
  | generation k id g => simp only [key, k.key_eq, String.append_assoc, String.empty_append]
  | schedule name => simp only [key, scheduleHash, String.append_assoc, String.empty_append]
  | task id => simp only [key, taskHash, String.append_assoc, String.empty_append]
  | lock id => simp only [key, lockHash, String.append_assoc, String.empty_append]
  | result id g => simp only [key, resultHash, String.append_assoc, String.empty_append]

/-- The first word of the keys that go on after it. -/
def word : Slot → Option String
  | queueWide _ => none
  | schedule _ => some "schedule"
  | task _ | generation _ _ _ => some "task"
  | lock _ => some "lock"
  | result _ _ => some "result"

/-- A word that ends at a colon is the first. -/
theorem takeWhile_word {w r : List Char} (hw : ':' ∉ w) : (w ++ ':' :: r).takeWhile (· ≠ ':') = w := by
  have hall : ∀ c ∈ w, decide (c ≠ ':') = true := fun c hc => decide_eq_true fun heq => hw (heq ▸ hc)
  rw [List.takeWhile_append_of_pos hall]
  simp

theorem head_of_word {s : Slot} {w : String} (h : s.word = some w) : s.head = w.toList := by
  cases s with
  | queueWide => exact absurd h (by simp [word])
  | schedule name =>
    obtain rfl := Option.some.inj h
    simp only [head, key, scheduleHash, String.toList_append]
    exact takeWhile_word (w := "schedule".toList) (by decide)
  | task id =>
    obtain rfl := Option.some.inj h
    simp only [head, key, taskHash, String.toList_append]
    exact takeWhile_word (w := "task".toList) (by decide)
  | lock id =>
    obtain rfl := Option.some.inj h
    simp only [head, key, lockHash, String.toList_append]
    exact takeWhile_word (w := "lock".toList) (by decide)
  | result id g =>
    obtain rfl := Option.some.inj h
    simp only [head, key, resultHash, String.toList_append, List.append_assoc]
    exact takeWhile_word (w := "result".toList) (by decide)
  | generation k id g =>
    obtain rfl := Option.some.inj h
    simp only [head, key, k.key_eq, String.toList_append, List.append_assoc]
    exact takeWhile_word (w := "task".toList) (by decide)

theorem head_ne_of_queueWide (k : QueueKey) {s : Slot} {w : String} (h : s.word = some w) : (queueWide k).head ≠ s.head := by
  have hwords : ∀ w ∈ ["schedule", "task", "lock", "result"], (queueWide k).head ≠ w.toList := by cases k <;> decide
  rw [head_of_word h]
  refine hwords w ?_
  cases s <;> simp_all [word]

/-- Equal keys have equal words. -/
theorem words_of_key (h : a.key queue = b.key queue) : a.key "" = b.key "" ∧ a.head = b.head := by
  rw [a.key_eq queue, b.key_eq queue] at h
  have hwords : a.key "" = b.key "" := String.append_right_inj _ |>.mp h
  exact ⟨hwords, by rw [head, head, hwords]⟩

theorem shadows_iff :
    a.Shadows b ↔ ∃ id k id' g, a = task id ∧ b = generation k id' g ∧ EffectMQ.Shadows id k id' g := by
  refine ⟨fun h => ?_, ?_⟩
  · cases a with
    | task id =>
      cases b with
      | generation k id' g => exact ⟨id, k, id', g, rfl, rfl, h⟩
      | queueWide | schedule | task | lock | result => exact h.elim
    | queueWide | schedule | lock | result | generation => exact h.elim
  · rintro ⟨id, k, id', g, rfl, rfl, h⟩
    exact h

theorem key_of_shadows (h : a.Shadows b) : a.key queue = b.key queue := by
  obtain ⟨id, k, id', g, rfl, rfl, h⟩ := shadows_iff.mp h
  rw [key, key, k.key_eq, taskHash]
  exact congrArg (queue ++ ":task:" ++ ·) h

theorem word_of_key (h : a.key queue = b.key queue) : a.word = b.word := by
  obtain ⟨_, hhead⟩ := words_of_key h
  cases ha : a.word with
  | none =>
    cases hb : b.word with
    | none => rfl
    | some w =>
      cases a with
      | queueWide k => exact absurd hhead (head_ne_of_queueWide k hb)
      | schedule | task | lock | result | generation => exact absurd ha (by simp [word])
  | some w =>
    cases hb : b.word with
    | none =>
      cases b with
      | queueWide k => exact absurd hhead.symm (head_ne_of_queueWide k ha)
      | schedule | task | lock | result | generation => exact absurd hb (by simp [word])
    | some w' =>
      rw [head_of_word ha, head_of_word hb] at hhead
      exact congrArg some (String.toList_inj.mp hhead)

theorem key_of_sameText (h : a.SameText b) : a.key queue = b.key queue := by
  cases a with
  | result id g =>
    cases b with
    | result id' g' =>
      obtain ⟨rfl, -, htext⟩ := h
      rw [key, key, resultHash, resultHash, htext]
    | queueWide | schedule | task | lock | generation => exact h.elim
  | generation k id g =>
    cases b with
    | generation k' id' g' =>
      obtain ⟨rfl, rfl, -, htext⟩ := h
      rw [key, key, k.key_eq, k.key_eq, htext]
    | queueWide | schedule | task | lock | result => exact h.elim
  | queueWide | schedule | task | lock => exact h.elim

theorem SameText.ne (h : a.SameText b) : a ≠ b := by
  rintro rfl
  cases a with
  | result id g => exact h.2.1 rfl
  | generation k id g => exact h.2.2.1 rfl
  | queueWide | schedule | task | lock => exact h

/-- What is written alike has more than fourteen digits. -/
theorem SameText.ownerGeneration (h : a.SameText b) : ∃ g ∈ a.ownerGeneration, 10 ^ 14 ≤ g := by
  cases a with
  | result id g =>
    cases b with
    | result id' g' => exact ⟨g, rfl, le_of_not_gt fun hlt => h.2.1 (luaNumber_inj hlt h.2.2)⟩
    | queueWide | schedule | task | lock | generation => exact h.elim
  | generation k id g =>
    cases b with
    | generation k' id' g' =>
      obtain ⟨rfl, -, hne, htext⟩ := h
      exact ⟨g, rfl, le_of_not_gt fun hlt => hne (GenerationKey.generationText_inj hlt htext)⟩
    | queueWide | schedule | task | lock | result => exact h.elim
  | queueWide | schedule | task | lock => exact h.elim

/-- Two keys are the same only for one slot, for two generations that are written alike, or for a record and a generation
that its id reads as. -/
theorem key_eq_iff : a.key queue = b.key queue ↔ a = b ∨ a.SameText b ∨ a.Shadows b ∨ b.Shadows a := by
  refine ⟨fun h => ?_, ?_⟩
  · have hword := word_of_key h
    obtain ⟨hkey, -⟩ := words_of_key h
    cases a <;> cases b <;> first | (simp [word] at hword; done) | skip
    case queueWide.queueWide k k' => exact Or.inl (congrArg queueWide (QueueKey.text_inj hkey))
    case schedule.schedule name name' => exact Or.inl (congrArg schedule ((String.append_right_inj _).mp hkey))
    case task.task id id' => exact Or.inl (congrArg task ((String.append_right_inj _).mp hkey))
    case lock.lock id id' => exact Or.inl (congrArg lock ((String.append_right_inj _).mp hkey))
    case task.generation id k id' g =>
      rw [key, key, k.key_eq, taskHash] at hkey
      exact Or.inr (Or.inr (Or.inl ((String.append_right_inj _).mp hkey)))
    case generation.task k id g id' =>
      rw [key, key, k.key_eq, taskHash] at hkey
      exact Or.inr (Or.inr (Or.inr ((String.append_right_inj _).mp hkey).symm))
    case result.result id g id' g' =>
      simp only [key, resultHash, String.append_assoc, String.append_right_inj] at hkey
      obtain ⟨rfl, htext⟩ := last_word_inj (colon_notMem_luaNumber g) (colon_notMem_luaNumber g')
        (by simpa only [String.append_assoc] using hkey)
      exact (eq_or_ne g g').imp (congrArg (result id)) fun hne => Or.inl ⟨rfl, hne, htext⟩
    case generation.generation k id g k' id' g' =>
      rw [key, key, k.key_eq, k'.key_eq] at hkey
      obtain ⟨rfl, rfl, htext⟩ := generation_inj ((String.append_right_inj _).mp hkey)
      exact (eq_or_ne g g').imp (congrArg (generation k id)) fun hne => Or.inl ⟨rfl, rfl, hne, htext⟩
  · rintro (rfl | h | h | h)
    · rfl
    · exact key_of_sameText h
    · exact key_of_shadows h
    · exact (key_of_shadows h).symm

theorem independent_iff : Independent queue a b ↔ a.key queue ≠ b.key queue := by
  refine ⟨fun h heq => ?_, fun h types types' hframe => hframe _ h.symm⟩
  have hchanged := h (fun _ => none) (fun key => if key = a.key queue then some .hash else none) fun key hkey => if_neg hkey
  simp [heq] at hchanged

theorem type_ne_of_shadows (h : a.Shadows b) : a.type ≠ b.type := by
  obtain ⟨id, k, id', g, rfl, rfl, _⟩ := shadows_iff.mp h
  cases k <;> simp [type, GenerationKey.type]

theorem Shadows.ne (h : a.Shadows b) : a ≠ b := by
  obtain ⟨id, k, id', g, rfl, rfl, _⟩ := shadows_iff.mp h
  simp

end Slot

end

/-- Two slots of a queue have different keys, and what is done at one leaves the other alone, exactly when neither is the
record of an id that reads as the generation of the other and they are no two generations that are written alike, which
have more than fourteen digits. A record and a generation under one key have different types. So the keys of the tasks in
use are apart when no id in use reads as a generation of another. -/
theorem keys_apart_iff (queue : String) (a b : Slot) :
    ((a ≠ b → a.key queue ≠ b.key queue ∧ a.Independent queue b) ↔
        ¬ a.Shadows b ∧ ¬ b.Shadows a ∧ ¬ a.SameText b) ∧
      (a.SameText b → ∃ g ∈ a.ownerGeneration, 10 ^ 14 ≤ g) ∧
      (a ≠ b → ¬ a.SameText b → a.key queue = b.key queue → a.type ≠ b.type) ∧
      ∀ ids : Set String,
        Set.InjOn (Slot.key queue) {s | (∀ id ∈ s.owner, id ∈ ids) ∧ ∀ g ∈ s.ownerGeneration, g < 10 ^ 14} ↔
          ∀ id ∈ ids, ∀ id' ∈ ids, ∀ k, ∀ g < 10 ^ 14, ¬ Shadows id k id' g := by
  refine ⟨⟨fun h => ⟨fun hshadows => ?_, fun hshadows => ?_, fun htext => ?_⟩, fun ⟨hab, hba, htext⟩ hne => ?_⟩,
    Slot.SameText.ownerGeneration, fun hne htext hkey => ?_, fun ids =>
    ⟨fun h id hid id' hid' k g hg hshadows => ?_, fun h a ha b hb hkey => ?_⟩⟩
  · exact (h hshadows.ne).1 (Slot.key_of_shadows hshadows)
  · exact (h hshadows.ne.symm).1 (Slot.key_of_shadows hshadows).symm
  · exact (h htext.ne).1 (Slot.key_of_sameText htext)
  · have hkey : a.key queue ≠ b.key queue := fun h =>
      (Slot.key_eq_iff.mp h).elim hne fun h => h.elim htext fun h => h.elim hab hba
    exact ⟨hkey, Slot.independent_iff.mpr hkey⟩
  · rcases Slot.key_eq_iff.mp hkey with heq | h | h | h
    · exact absurd heq hne
    · exact absurd h htext
    · exact Slot.type_ne_of_shadows h
    · exact (Slot.type_ne_of_shadows h).symm
  · have hslots : (Slot.task id).Shadows (.generation k id' g) := hshadows
    refine hslots.ne (h ⟨fun _ h => ?_, fun _ h => ?_⟩ ⟨fun _ h => ?_, fun _ h => ?_⟩ (Slot.key_of_shadows hslots))
    · exact Option.some.inj h ▸ hid
    · exact absurd h (by simp [Slot.ownerGeneration])
    · exact Option.some.inj h ▸ hid'
    · exact Option.some.inj h ▸ hg
  · rcases Slot.key_eq_iff.mp hkey with heq | htext | hshadows | hshadows
    · exact heq
    · -- two generations that are written alike are not both in use
      obtain ⟨g, hg, hle⟩ := htext.ownerGeneration
      exact absurd hle (ha.2 g hg).not_ge
    · obtain ⟨id, k, id', g, rfl, rfl, hshadows⟩ := Slot.shadows_iff.mp hshadows
      exact absurd hshadows (h id (ha.1 id rfl) id' (hb.1 id' rfl) k g (hb.2 g rfl))
    · obtain ⟨id, k, id', g, rfl, rfl, hshadows⟩ := Slot.shadows_iff.mp hshadows
      exact absurd hshadows (h id (hb.1 id rfl) id' (ha.1 id' rfl) k g (ha.2 g rfl))

/-- A task whose id reads as the first generation of another has its record where the other has its history. -/
theorem keys_collide : Slot.task "a:1:history" ≠ .generation .history "a" 1 ∧
    (Slot.task "a:1:history").key "mail" = (Slot.generation .history "a" 1).key "mail" ∧
    (Slot.task "a:1:history").type = .hash ∧ (Slot.generation .history "a" 1).type = .stream := by
  decide

end EffectMQ
