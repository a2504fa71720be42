import IvyBus.Filter
import IvyBus.Lib.Run
import IvyBus.Lists

namespace IvyBus

open Lib IvyList

variable {Code : Type}

def ivyBindingTerminate (filter : Filter Code) : Filter Code :=
  { filter with messagesClasses := [] }

def missingKeyword (message : Str) : Str :=
  ascii "*** WARNING *** message '" ++ message ++
    ascii "' not sent due to missing keyword in filter table!!!\n"

def ivyBindindFilterCheck (filter : Filter Code) (message : Str) : Str :=
  if message ∈ filter.messagesClasses then [] else missingKeyword message

namespace Filter.InMemory

/-- The variables of `ivybind.c`, with the nodes of the table and the strings they point to. -/
structure State (Code : Type) where
  messagesClasses : IvyList Nat Nat
  words : AList fun _ : Nat => Str
  tokenExtract : Option Code

def init : State Code := ⟨null, ∅, none⟩

/-- An argument, and the addresses that `malloc` and `strdup` return for it. -/
structure Arg where
  node : Nat
  word : Nat
  arg : Option Str

def free (s : State Code) (p : Nat) : Option (State Code) :=
  (s.words.lookup p).map fun _ => { s with words := s.words.erase p }

def ivyBindingAddFilter (engine : Engine Code) (s : State Code) (a : Arg) : State Code :=
  let s := match a.arg with
    | none => s
    | some text =>
      { s with
        messagesClasses := s.messagesClasses.ivyListAdd a.node a.word
        words := s.words.insert a.word text }
  { s with tokenExtract := s.tokenExtract.or (ivyBindingCompile engine tokenRegexp).toOption }

def ivyBindingSetFilter (engine : Engine Code) (s : State Code) (argv : List Arg) : State Code :=
  argv.foldl (ivyBindingAddFilter engine) s

def removeWord (arg : Str) (word : Nat) (s : State Code) : Option (State Code) := do
  let node ← s.messagesClasses.cells.lookup word
  let text ← s.words.lookup node.data
  if arg = text then
    let s ← free s node.data
    let messagesClasses ← s.messagesClasses.ivyListRemove word
    some { s with messagesClasses := messagesClasses }
  else some s

def ivyBindingRemoveFilter (s : State Code) (arg : Str) : Option (State Code) :=
  ivyListEachSafe State.messagesClasses (removeWord arg) s

def freeWord (word : Nat) (s : State Code) : Option (State Code) :=
  (s.messagesClasses.cells.lookup word).bind fun node => free s node.data

def ivyBindingTerminate (s : State Code) : Option (State Code) :=
  (ivyListEachSafe State.messagesClasses freeWord s).bind fun s =>
    s.messagesClasses.ivyListEmpty.map fun cells =>
      { s with messagesClasses := ⟨none, cells.cells⟩ }

def ivyBindingFilter (engine : Engine Code) (s : State Code) (expression : Str) : Option Bool :=
  if expression.head? = some 94 ∧ s.messagesClasses.list ≠ none then
    match ivyBindingExec engine s.tokenExtract expression with
    | none => some true
    | some groups =>
      let token := ivyBindingMatch expression (groups.headD (0, 0))
      (s.messagesClasses.ivyListIter fun node =>
        (s.words.lookup node.data).map fun word => word.take token.length ≠ token).map
          Option.isSome
  else some true

def ivyBindindFilterCheck (s : State Code) (message : Str) : Option Str :=
  (s.messagesClasses.ivyListIter fun node =>
    (s.words.lookup node.data).map fun word => word ≠ message).map
      fun word => if word.isSome then [] else missingKeyword message

inductive Call
  | set (argv : List Arg)
  | add (arg : Arg)
  | remove (arg : Str)
  | terminate

def next (engine : Engine Code) (s : State Code) : Call → Option (State Code)
  | .set argv => some (ivyBindingSetFilter engine s argv)
  | .add arg => some (ivyBindingAddFilter engine s arg)
  | .remove arg => ivyBindingRemoveFilter s arg
  | .terminate => ivyBindingTerminate s

def Call.apply (engine : Engine Code) (filter : Filter Code) : Call → Filter Code
  | .set argv => IvyBus.ivyBindingSetFilter engine filter (argv.map Arg.arg)
  | .add arg => IvyBus.ivyBindingAddFilter engine filter arg.arg
  | .remove arg => IvyBus.ivyBindingRemoveFilter filter arg
  | .terminate => IvyBus.ivyBindingTerminate filter

/-- `malloc` and `strdup` return blocks that are not in use. They may have been in use before. -/
def Fresh (s : State Code) (a : Arg) : Prop :=
  a.arg.isSome → a.node ∉ s.messagesClasses.cells ∧ a.word ∉ s.words

def Allocates (engine : Engine Code) (s : State Code) : Call → Prop
  | .set argv => Along (fun s a => some (ivyBindingAddFilter engine s a)) Fresh s argv
  | .add arg => Fresh s arg
  | .remove _ => True
  | .terminate => True

structure Word where
  node : Nat
  word : Nat
  text : Str

structure Texts (s : State Code) (l : List Word) : Prop where
  lookup : ∀ w ∈ l, s.words.lookup w.word = some w.text
  nodup : (l.map Word.word).Nodup
  live : ∀ p ∈ s.words, p ∈ l.map Word.word

/-- The memory holds the nodes and the strings of the table, and nothing else. -/
structure Same (s : State Code) (l : List Word) (filter : Filter Code) : Prop where
  nodes : s.messagesClasses.Holds Word.node Word.word l
  texts : Texts s l
  words_eq : filter.messagesClasses = l.map Word.text
  token_eq : filter.tokenExtract = s.tokenExtract

variable {engine : Engine Code} {s s' : State Code} {l u v : List Word} {w : Word}
  {filter : Filter Code}

theorem same_init : Same (init : State Code) [] Filter.empty :=
  ⟨holds_null,
    ⟨List.forall_mem_nil _, List.nodup_nil, fun p hp => absurd hp (AList.notMem_empty p)⟩, rfl, rfl⟩

theorem Texts.free (h : Texts s (u ++ w :: v)) :
    ∃ s', free s w.word = some s' ∧ Texts s' (u ++ v) ∧ s'.messagesClasses = s.messagesClasses ∧
      s'.tokenExtract = s.tokenExtract := by
  have hnodup := h.nodup
  rw [List.map_append, List.map_cons, List.nodup_middle, List.nodup_cons,
    ← List.map_append] at hnodup
  have hin : ∀ c ∈ u ++ v, c ∈ u ++ w :: v := fun c hc =>
    List.perm_middle.symm.subset (List.mem_cons_of_mem w hc)
  refine ⟨{ s with words := s.words.erase w.word }, ?_, ⟨fun c hc => ?_, hnodup.2, fun p hp => ?_⟩,
    rfl, rfl⟩
  · rw [InMemory.free, h.lookup w (List.mem_append_right u List.mem_cons_self)]
    rfl
  · have hne : c.word ≠ w.word := fun heq => hnodup.1 (heq ▸ List.mem_map_of_mem hc)
    exact (AList.lookup_erase_ne hne).trans (h.lookup c (hin c hc))
  · obtain ⟨hne, hp⟩ := AList.mem_erase.mp hp
    have hmem := h.live p hp
    rw [(List.perm_middle.map Word.word).mem_iff, List.map_cons, List.mem_cons] at hmem
    exact hmem.resolve_left hne

theorem Same.add (h : Same s l filter) (engine : Engine Code) {a : Arg} (hfresh : Fresh s a) :
    ∃ l, Same (ivyBindingAddFilter engine s a) l
      (IvyBus.ivyBindingAddFilter engine filter a.arg) := by
  obtain ⟨node, word, arg⟩ := a
  have htoken : (IvyBus.ivyBindingAddFilter engine filter arg).tokenExtract =
      s.tokenExtract.or (ivyBindingCompile engine tokenRegexp).toOption :=
    congrArg (Option.or · _) h.token_eq
  cases arg with
  | none => exact ⟨l, h.nodes, ⟨h.texts.lookup, h.texts.nodup, h.texts.live⟩, h.words_eq, htoken⟩
  | some text =>
    obtain ⟨hnode, hword⟩ := hfresh rfl
    have hnew : word ∉ l.map Word.word := fun hin => by
      obtain ⟨w, hw, rfl⟩ := List.mem_map.mp hin
      exact hword (AList.lookup_isSome.mp (h.texts.lookup w hw ▸ rfl))
    let w : Word := ⟨node, word, text⟩
    have hnodes : (s.messagesClasses.ivyListAdd node word).Holds Word.node Word.word (w :: l) :=
      h.nodes.add (b := w) hnode
    refine ⟨w :: l, hnodes, ⟨?_, List.nodup_cons.mpr ⟨hnew, h.texts.nodup⟩, fun p hp => ?_⟩,
      congrArg (text :: ·) h.words_eq, htoken⟩
    · intro w hw
      rcases List.mem_cons.mp hw with rfl | hw
      · exact AList.lookup_insert _
      · have hne : w.word ≠ word := fun heq => hnew (heq ▸ List.mem_map_of_mem hw)
        exact (AList.lookup_insert_ne hne).trans (h.texts.lookup w hw)
    · rcases (AList.mem_insert _).mp hp with rfl | hp
      · exact List.mem_cons_self
      · exact List.mem_cons_of_mem _ (h.texts.live p hp)

theorem Same.set (h : Same s l filter) {argv : List Arg}
    (hfresh : Along (fun s a => some (ivyBindingAddFilter engine s a)) Fresh s argv) :
    ∃ l, Same (ivyBindingSetFilter engine s argv) l
      (IvyBus.ivyBindingSetFilter engine filter (argv.map Arg.arg)) := by
  induction argv generalizing s l filter with
  | nil => exact ⟨l, h⟩
  | cons a argv ih =>
    obtain ⟨l, hadd⟩ := h.add engine hfresh.1
    exact ih hadd (hfresh.2 _ rfl)

theorem removeWord_spec (hnodes : s.messagesClasses.Holds Word.node Word.word (u ++ w :: v))
    (htexts : Texts s (u ++ w :: v)) (arg : Str) :
    ∃ s', removeWord arg w.node s = some s' ∧
      s'.messagesClasses.Holds Word.node Word.word ((if arg = w.text then u else u ++ [w]) ++ v) ∧
      Texts s' ((if arg = w.text then u else u ++ [w]) ++ v) ∧
      s'.tokenExtract = s.tokenExtract := by
  have hcell : s.messagesClasses.cells.lookup w.node = some ⟨v.head?.map Word.node, w.word⟩ :=
    hnodes.lookup
  have htext := htexts.lookup w (List.mem_append_right u List.mem_cons_self)
  by_cases harg : arg = w.text
  · obtain ⟨s₁, hs₁, htexts₁, hclasses, htoken⟩ := htexts.free
    obtain ⟨messagesClasses, hremove, hrest⟩ := hnodes.remove w.node
    have hnew : w.node ∉ u.map Word.node := by
      have hnodup := hnodes.nodup
      rw [List.map_append, List.nodup_append] at hnodup
      exact fun hin => hnodup.2.2 _ hin _ List.mem_cons_self rfl
    rw [unlink_cell hnew] at hrest
    refine ⟨{ s₁ with messagesClasses := messagesClasses }, ?_, ?_⟩
    · simp only [removeWord, hcell, htext, Option.bind_eq_bind, Option.bind_some, if_pos harg, hs₁,
        hclasses, hremove]
    · rw [if_pos harg]
      exact ⟨hrest, ⟨htexts₁.lookup, htexts₁.nodup, htexts₁.live⟩, htoken⟩
  · refine ⟨s, ?_, ?_⟩
    · simp only [removeWord, hcell, htext, Option.bind_eq_bind, Option.bind_some, if_neg harg]
    · rw [if_neg harg, ← List.append_cons]
      exact ⟨hnodes, htexts, rfl⟩

theorem Same.remove (h : Same s l filter) (arg : Str) :
    ∃ s', ivyBindingRemoveFilter s arg = some s' ∧
      ∃ l, Same s' l (IvyBus.ivyBindingRemoveFilter filter arg) := by
  let I (ahead : List Word) (t : State Code) : Prop := ∃ u pre, l = pre ++ ahead ∧
    u = pre.filter (·.text ≠ arg) ∧ t.messagesClasses.Holds Word.node Word.word (u ++ ahead) ∧
      Texts t (u ++ ahead) ∧ t.tokenExtract = s.tokenExtract
  have hstep : ∀ w rest t, I (w :: rest) t →
      (∃ pre, t.messagesClasses.Holds Word.node Word.word (pre ++ w :: rest)) ∧
        ∃ t', removeWord arg w.node t = some t' ∧ I rest t' := by
    rintro w rest t ⟨u, pre, hl, hu, hnodes, htexts, htoken⟩
    obtain ⟨t', ht', hnodes', htexts', htoken'⟩ := removeWord_spec hnodes htexts arg
    refine ⟨⟨u, hnodes⟩, t', ht', _, pre ++ [w], ?_, ?_, hnodes', htexts', htoken'.trans htoken⟩
    · rw [hl, List.append_cons]
    · rw [List.filter_append, ← hu]
      by_cases harg : arg = w.text
      · rw [if_pos harg, List.filter_cons_of_neg (by simp [harg]), List.filter_nil,
          List.append_nil]
      · rw [if_neg harg, List.filter_cons_of_pos (by simpa using Ne.symm harg), List.filter_nil]
  obtain ⟨s', hs', u, pre, hl, hu, hnodes, htexts, htoken⟩ := ivyListEachSafe_rule hstep h.nodes
    ⟨[], [], rfl, rfl, h.nodes, h.texts, rfl⟩
  rw [List.append_nil] at hl hnodes htexts
  refine ⟨s', hs', u, hnodes, htexts, ?_, h.token_eq.trans htoken.symm⟩
  change filter.messagesClasses.filter (· ≠ arg) = _
  rw [h.words_eq, hu, ← hl, List.filter_map]
  rfl

theorem Same.terminate (h : Same s l filter) :
    ∃ s', ivyBindingTerminate s = some s' ∧ Same s' [] (IvyBus.ivyBindingTerminate filter) := by
  let I (ahead : List Word) (t : State Code) : Prop := (∃ pre, l = pre ++ ahead) ∧
    t.messagesClasses.Holds Word.node Word.word l ∧ Texts t ahead ∧ t.tokenExtract = s.tokenExtract
  have hstep : ∀ w rest t, I (w :: rest) t →
      (∃ pre, t.messagesClasses.Holds Word.node Word.word (pre ++ w :: rest)) ∧
        ∃ t', freeWord w.node t = some t' ∧ I rest t' := by
    rintro w rest t ⟨⟨pre, hl⟩, hnodes, htexts, htoken⟩
    obtain ⟨t', ht', htexts', hclasses, htoken'⟩ := Texts.free (u := []) htexts
    have hcell : t.messagesClasses.cells.lookup w.node = some ⟨rest.head?.map Word.node, w.word⟩ :=
      Lib.Holds.lookup (hl ▸ hnodes)
    refine ⟨⟨pre, hl ▸ hnodes⟩, t', ?_, ⟨pre ++ [w], ?_⟩, hclasses.symm ▸ hnodes, htexts',
      htoken'.trans htoken⟩
    · rw [freeWord, hcell]
      exact ht'
    · rw [hl, List.append_cons]
  obtain ⟨t, ht, -, hnodes, htexts, htoken⟩ := ivyListEachSafe_rule hstep h.nodes
    ⟨⟨[], rfl⟩, h.nodes, h.texts, rfl⟩
  obtain ⟨⟨list, cells⟩, hempty, hnull⟩ := hnodes.empty
  obtain rfl : list = none := hnull.list_eq
  refine ⟨{ t with messagesClasses := ⟨none, cells⟩ }, ?_, hnull,
    ⟨htexts.lookup, htexts.nodup, htexts.live⟩, rfl, h.token_eq.trans htoken.symm⟩
  rw [ivyBindingTerminate, ht, Option.bind_some, hempty]
  rfl

theorem Same.search (h : Same s l filter) (p : Str → Bool) :
    ∃ found, (s.messagesClasses.ivyListIter fun node =>
        (s.words.lookup node.data).map fun word => !p word) = some found ∧
      found.isSome = filter.messagesClasses.any p := by
  refine ⟨_, h.nodes.find (fun w => !p w.text) fun w hw next => ?_, ?_⟩
  · rw [h.texts.lookup w hw]
    rfl
  · simp only [h.words_eq, Option.isSome_map, List.any_map, Bool.not_not, List.isSome_find?]
    rfl

theorem Same.keeps (h : Same s l filter) (engine : Engine Code) (expression : Str) :
    ivyBindingFilter engine s expression =
      some (IvyBus.ivyBindingFilter engine filter expression) := by
  have hwords : s.messagesClasses.list ≠ none ↔ filter.messagesClasses ≠ [] := by
    rw [h.nodes.list_eq, h.words_eq]
    cases l <;> simp
  rw [ivyBindingFilter, IvyBus.ivyBindingFilter, h.token_eq]
  by_cases hhead : expression.head? = some 94 ∧ filter.messagesClasses ≠ []
  · rw [if_pos hhead, if_pos ⟨hhead.1, hwords.mpr hhead.2⟩]
    cases ivyBindingExec engine s.tokenExtract expression with
    | none => rfl
    | some groups =>
      let token := ivyBindingMatch expression (groups.headD (0, 0))
      obtain ⟨found, hfound, hany⟩ := h.search fun word => word.take token.length = token
      simp only [← decide_not] at hfound
      change Option.map Option.isSome _ = some (filter.messagesClasses.any _)
      rw [hfound, ← hany]
      rfl
  · rw [if_neg hhead, if_neg fun hin => hhead ⟨hin.1, hwords.mp hin.2⟩]

theorem Same.warns (h : Same s l filter) (message : Str) :
    ivyBindindFilterCheck s message = some (IvyBus.ivyBindindFilterCheck filter message) := by
  obtain ⟨found, hfound, hany⟩ := h.search fun word => word = message
  simp only [← decide_not] at hfound
  rw [ivyBindindFilterCheck, hfound, Option.map_some, hany]
  simp [IvyBus.ivyBindindFilterCheck]

theorem Same.next (h : Same s l filter) {call : Call} (hfresh : Allocates engine s call) :
    ∃ s', next engine s call = some s' ∧ ∃ l, Same s' l (call.apply engine filter) := by
  cases call with
  | set argv => exact ⟨_, rfl, h.set hfresh⟩
  | add arg => exact ⟨_, rfl, h.add engine hfresh⟩
  | remove arg => exact h.remove arg
  | terminate =>
    obtain ⟨s', hs', hend⟩ := h.terminate
    exact ⟨s', hs', [], hend⟩

/-- The calls of an application read nothing that has been freed, free nothing twice and lose
nothing; the table answers as the list of its words does. -/
theorem filter_in_memory (engine : Engine Code) (calls : List Call)
    (hfresh : Along (next engine) (Allocates engine) init calls) :
    ∃ s l, run (next engine) init calls = some s ∧
      Same s l (calls.foldl (Call.apply engine) Filter.empty) ∧
      (∀ expression, ivyBindingFilter engine s expression = some (IvyBus.ivyBindingFilter engine
        (calls.foldl (Call.apply engine) Filter.empty) expression)) ∧
      ∀ message, ivyBindindFilterCheck s message = some (IvyBus.ivyBindindFilterCheck
        (calls.foldl (Call.apply engine) Filter.empty) message) := by
  suffices hrun : ∀ s l filter, Same s l filter → Along (next engine) (Allocates engine) s calls →
      ∃ s' l', run (next engine) s calls = some s' ∧
        Same s' l' (calls.foldl (Call.apply engine) filter) by
    obtain ⟨s, l, hs, hsame⟩ := hrun init [] Filter.empty same_init hfresh
    exact ⟨s, l, hs, hsame, hsame.keeps engine, hsame.warns⟩
  clear hfresh
  induction calls with
  | nil => exact fun s l filter h _ => ⟨s, l, rfl, h⟩
  | cons call calls ih =>
    intro s l filter h hfresh
    obtain ⟨t, ht, l', hnext⟩ := h.next hfresh.1
    obtain ⟨s', l'', hs', hend⟩ := ih t l' _ hnext (hfresh.2 t ht)
    refine ⟨s', l'', ?_, hend⟩
    rw [run, ht]
    exact hs'

instance (s : State Code) (a : Arg) : Decidable (Fresh s a) :=
  inferInstanceAs (Decidable (_ → _))

instance (engine : Engine Code) (s : State Code) :
    (call : Call) → Decidable (Allocates engine s call)
  | .set argv => inferInstanceAs (Decidable (Along _ Fresh s argv))
  | .add arg => inferInstanceAs (Decidable (Fresh s arg))
  | .remove _ => .isTrue trivial
  | .terminate => .isTrue trivial

def reused : List Call :=
  [.set [⟨0, 0, some (ascii "TRACK")⟩, ⟨1, 1, some (ascii "CLOCK")⟩,
      ⟨2, 2, some (ascii "TRACK")⟩],
    .remove (ascii "TRACK"), .add ⟨2, 0, some (ascii "ALARM")⟩, .terminate,
    .add ⟨1, 2, some (ascii "TRACK")⟩]

theorem filter_in_memory_reused :
    Along (next anchored) (Allocates anchored) init reused ∧
      ∃ s, run (next anchored) init reused = some s ∧
        ivyBindingFilter anchored s (ascii "^TRACK") = some true ∧
        ivyBindingFilter anchored s (ascii "^CLOCK") = some false := by
  have hfresh : Along (next anchored) (Allocates anchored) init reused := by decide
  obtain ⟨s, l, hs, -, hkeeps, -⟩ := filter_in_memory anchored reused hfresh
  exact ⟨hfresh, s, hs, (hkeeps _).trans (by decide), (hkeeps _).trans (by decide)⟩

end Filter.InMemory

end IvyBus
