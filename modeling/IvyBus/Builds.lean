import Mathlib.Data.List.DropRight
import IvyBus.Bind

namespace IvyBus.Builds

abbrev maxMsgFields : Nat := 200

/-- What both libraries find: where the whole match starts and ends, and each group that takes part
in it. -/
structure Found where
  overall : Nat × Nat
  groups : List (Option (Nat × Nat))
  length_lt : groups.length < maxMsgFields

def Found.spans (f : Found) : List (Option (Nat × Nat)) := some f.overall :: f.groups

def Found.upToLast (f : Found) : List (Option (Nat × Nat)) := f.groups.rdropWhile Option.isNone

def groupText (message : Str) : Option (Nat × Nat) → Str
  | none => []
  | some (so, eo) => (message.drop so).take (eo - so)

def offsets : Option (Nat × Nat) → Int × Int
  | none => (-1, -1)
  | some (so, eo) => (so, eo)

/-- `"%.*s"`; nothing is read for the length zero. -/
def printArg (message : Str) (arg : Int × Int) : Str :=
  (message.drop arg.2.toNat).take arg.1.toNat

/-- The loop of `RegexpCall` over the arguments, from the length and the start of each. -/
def regexpCallArgs (message : Str) (rc : Int) (ivyBindingMatch : Nat → Int × Int) :
    Option (List Str) :=
  if rc < 1 then none
  else some ((List.range' 1 (rc.toNat - 1)).map fun indx => printArg message (ivyBindingMatch indx))

namespace Pcre

/-- The result of `pcre_exec`, and what is in `ovector`; the last third of it is not read. -/
def pcreExec : Option Found → Int × List Int
  | none => (-1, [])
  | some f => (f.upToLast.length + 1, f.spans.flatMap fun g => [(offsets g).1, (offsets g).2])

def ivyBindingExec (found : Option Found) : Int × List Int :=
  let (nbMatch, ovector) := pcreExec found
  (if nbMatch < 1 then 0 else nbMatch, ovector)

def ivyBindingMatch (ovector : List Int) (argnum : Nat) : Int × Int :=
  (ovector.getD (2 * argnum + 1) 0 - ovector.getD (2 * argnum) 0, ovector.getD (2 * argnum) 0)

def args (message : Str) (found : Option Found) : Option (List Str) :=
  let (rc, ovector) := ivyBindingExec found
  regexpCallArgs message rc (ivyBindingMatch ovector)

end Pcre

namespace Posix

abbrev regNomatch : Int := 1

/-- The result of `regexec`, and the array of `regmatch_t` after it. -/
def regexec : Option Found → Int × List (Int × Int)
  | none => (regNomatch, List.replicate (maxMsgFields + 1) (-1, -1))
  | some f => (0, f.spans.map offsets ++
      List.replicate (maxMsgFields + 1 - f.spans.length) (-1, -1))

def ivyBindingExec (found : Option Found) : Int × List (Int × Int) :=
  let (nbMatch, found) := regexec found
  if nbMatch = regNomatch then (0, found)
  else
    ((List.range' 1 (maxMsgFields - 1)).foldl
      (fun nbMatch index => if (found.getD index (0, 0)).1 ≠ -1 then nbMatch + 1 else nbMatch)
      nbMatch, found)

/-- A group that does not take part has the length zero, and no start. -/
def ivyBindingMatch (found : List (Int × Int)) (argnum : Nat) : Int × Int :=
  let p := found.getD argnum (0, 0)
  if p.1 ≠ -1 then (p.2 - p.1, p.1) else (0, 0)

def args (message : Str) (found : Option Found) : Option (List Str) :=
  let (rc, found) := ivyBindingExec found
  regexpCallArgs message rc (ivyBindingMatch found)

end Posix

/-- Both builds have a match or neither has, and the arguments are the groups up to the last one
that takes part. -/
def Agree (message : Str) (found : Option Found) : Prop :=
  Pcre.args message found = Posix.args message found ∧
    ∀ args ∈ Pcre.args message found, ∀ f ∈ found, args = f.upToLast.map (groupText message)

section Arrays

theorem map_getD_range' {α : Type} (l : List α) (d : α) {k n : Nat} (h : k + n ≤ l.length) :
    (List.range' k n).map (fun i => l.getD i d) = (l.drop k).take n := by
  apply List.ext_getElem
  · simp
    omega
  · intro i hi _
    rw [List.length_map, List.length_range'] at hi
    have hlt : k + i < l.length := by omega
    simp [hlt]

theorem foldl_count {α : Type} (p : α → Prop) [DecidablePred p] (l : List α) (n : Int) :
    l.foldl (fun n a => if p a then n + 1 else n) n = n + l.countP (p ·) := by
  induction l generalizing n with
  | nil => simp
  | cons a l ih =>
    rw [List.foldl_cons, ih, List.countP_cons]
    by_cases ha : p a
    · simp [ha]
      omega
    · simp [ha]

theorem getD_pairs (spans : List (Option (Nat × Nat))) (n : Nat) (h : n < spans.length) :
    let ovector := spans.flatMap fun g => [(offsets g).1, (offsets g).2]
    ovector.getD (2 * n) 0 = (offsets spans[n]).1 ∧
      ovector.getD (2 * n + 1) 0 = (offsets spans[n]).2 := by
  induction spans generalizing n with
  | nil => cases h
  | cons g spans ih =>
    cases n with
    | zero => exact ⟨rfl, rfl⟩
    | succ n => exact ih n (Nat.lt_of_succ_lt_succ h)

end Arrays

section Args

variable (message : Str) (f : Found)

theorem printArg_offsets (g : Option (Nat × Nat)) :
    printArg message ((offsets g).2 - (offsets g).1, (offsets g).1) = groupText message g := by
  rcases g with _ | ⟨so, eo⟩
  · rfl
  · simp [printArg, offsets, groupText]

theorem pcre_match {n : Nat} (h : n < f.groups.length) :
    printArg message (Pcre.ivyBindingMatch (Pcre.pcreExec (some f)).2 (1 + n)) =
      groupText message f.groups[n] := by
  have hspan : 1 + n < f.spans.length := by
    rw [Found.spans, List.length_cons]
    omega
  obtain ⟨hso, heo⟩ := getD_pairs f.spans (1 + n) hspan
  have hget : f.spans[1 + n] = f.groups[n] := by simp [Found.spans, Nat.add_comm 1 n]
  rw [← printArg_offsets, ← hget, ← hso, ← heo]
  rfl

theorem regexpCallArgs_succ (n : Nat) (ivyBindingMatch : Nat → Int × Int) :
    regexpCallArgs message (n + 1) ivyBindingMatch =
      some ((List.range' 1 n).map fun indx => printArg message (ivyBindingMatch indx)) := by
  have hn : ((n : Int) + 1).toNat - 1 = n := by omega
  rw [regexpCallArgs, if_neg (by omega), hn]

theorem pcre_exec :
    Pcre.ivyBindingExec (some f) =
      ((f.upToLast.length : Int) + 1, (Pcre.pcreExec (some f)).2) := by
  unfold Pcre.ivyBindingExec Pcre.pcreExec
  dsimp only
  rw [if_neg (by omega)]

theorem pcre_args : Pcre.args message (some f) = some (f.upToLast.map (groupText message)) := by
  have hprefix : f.upToLast <+: f.groups := List.rdropWhile_prefix _ _
  rw [Pcre.args, pcre_exec]
  dsimp only
  rw [regexpCallArgs_succ]
  refine congrArg some (List.ext_getElem (by simp) fun n hn hn' => ?_)
  rw [List.length_map] at hn'
  have hlt : n < f.groups.length := hn'.trans_le hprefix.length_le
  rw [List.getElem_map, List.getElem_map, List.getElem_range', Nat.one_mul, hprefix.getElem hn']
  exact pcre_match message f hlt

def Found.toGroups (f : Found) : List (Nat × Nat) :=
  f.upToLast.map fun
    | none => (0, 0)
    | some (so, eo) => (so, eo - so)

/-- The other modules are about the first build. -/
theorem pcre_args_eq :
    Pcre.args message (some f) = some (f.toGroups.map (ivyBindingMatch message)) := by
  rw [pcre_args, Found.toGroups, List.map_map]
  refine congrArg some (List.map_congr_left fun g _ => ?_)
  rcases g with _ | ⟨so, eo⟩ <;> rfl

theorem countP_offsets (groups : List (Option (Nat × Nat))) :
    (groups.map offsets).countP (fun p => p.1 ≠ -1) = groups.countP Option.isSome := by
  rw [List.countP_map]
  refine List.countP_congr fun g _ => ?_
  rcases g with _ | ⟨so, eo⟩
  · simp [offsets]
  · simp [offsets]

theorem take_regexec : ((Posix.regexec (some f)).2.drop 1).take (maxMsgFields - 1) =
    f.groups.map offsets ++ List.replicate (maxMsgFields - 1 - f.groups.length) (-1, -1) := by
  have hlt := f.length_lt
  rw [Posix.regexec, Found.spans, List.map_cons, List.cons_append, List.drop_succ_cons,
    List.drop_zero, List.take_append, List.take_replicate]
  rw [List.take_of_length_le (by rw [List.length_map]; omega)]
  refine congrArg _ (congrArg (List.replicate · _) ?_)
  rw [List.length_map, List.length_cons]
  omega

theorem exec_of_regexec {found : Option Found} {array : List (Int × Int)}
    (h : Posix.regexec found = (0, array)) (hlength : maxMsgFields ≤ array.length) :
    Posix.ivyBindingExec found =
      (((((array.drop 1).take (maxMsgFields - 1)).countP (fun p => p.1 ≠ -1) : Nat) : Int),
        array) := by
  have hne : (0 : Int) ≠ Posix.regNomatch := by decide
  have hmap := map_getD_range' (k := 1) (n := maxMsgFields - 1) array (0, 0) hlength
  unfold Posix.ivyBindingExec
  rw [h]
  dsimp only
  rw [if_neg hne, foldl_count (fun index => (array.getD index (0, 0)).1 ≠ -1), Int.zero_add,
    ← hmap, List.countP_map]
  rfl

theorem length_regexec : (Posix.regexec (some f)).2.length = maxMsgFields + 1 := by
  have hlt := f.length_lt
  rw [Posix.regexec, List.length_append, List.length_map, List.length_replicate, Found.spans,
    List.length_cons]
  omega

/-- The result of `IvyBindingExec` in the second build is the number of groups that take part. -/
theorem posix_exec : Posix.ivyBindingExec (some f) =
    (((f.groups.countP Option.isSome : Nat) : Int), (Posix.regexec (some f)).2) := by
  have hrest : (List.replicate (maxMsgFields - 1 - f.groups.length) ((-1, -1) : Int × Int)).countP
      (fun p => p.1 ≠ -1) = 0 := by
    refine List.countP_eq_zero.mpr fun p hp => ?_
    rw [List.eq_of_mem_replicate hp]
    decide
  have hexec := @exec_of_regexec (some f) (Posix.regexec (some f)).2 rfl
    ((length_regexec f).symm ▸ Nat.le_succ _)
  rw [hexec, take_regexec, List.countP_append, countP_offsets, hrest, Nat.add_zero]

theorem countP_le_upToLast : f.groups.countP Option.isSome ≤ f.upToLast.length := by
  have hnone : (f.groups.rtakeWhile Option.isNone).countP Option.isSome = 0 := by
    refine List.countP_eq_zero.mpr fun g hg => ?_
    have hg := List.mem_rtakeWhile_imp hg
    simpa using hg
  have hsplit : f.upToLast ++ f.groups.rtakeWhile Option.isNone = f.groups :=
    List.rdropWhile_append_rtakeWhile
  rw [← hsplit, List.countP_append, hnone, Nat.add_zero]
  exact List.countP_le_length

theorem posix_args_length {args : List Str} (h : Posix.args message (some f) = some args) :
    args.length + 1 = f.groups.countP Option.isSome := by
  rw [Posix.args, posix_exec] at h
  dsimp only at h
  generalize f.groups.countP Option.isSome = n at h ⊢
  cases n with
  | zero =>
    rw [regexpCallArgs, if_pos (by decide)] at h
    cases h
  | succ n =>
    rw [Int.natCast_succ, regexpCallArgs_succ, Option.some.injEq] at h
    rw [← h, List.length_map, List.length_range']

theorem pcre_args_ne : Pcre.args message (some f) ≠ Posix.args message (some f) := by
  intro heq
  rw [pcre_args] at heq
  have hlength := posix_args_length message f heq.symm
  rw [List.length_map] at hlength
  have hle := countP_le_upToLast f
  omega

end Args

/-- The builds agree on no match: the second one obtains fewer arguments than the first, and
reports no match at all when no group takes part. -/
theorem builds_agree_iff (message : Str) (found : Option Found) :
    Agree message found ↔ found = none := by
  constructor
  · rintro ⟨hsame, -⟩
    rcases found with _ | f
    · rfl
    · exact absurd hsame (pcre_args_ne message f)
  · rintro rfl
    exact ⟨rfl, fun _ _ _ hf => nomatch hf⟩

def oneGroup : Found := ⟨(0, 3), [some (1, 3)], by decide⟩

def noGroup : Found := ⟨(0, 3), [], by decide⟩

theorem builds_differ :
    Pcre.args (ascii "abc") (some oneGroup) = some [ascii "bc"] ∧
    Posix.args (ascii "abc") (some oneGroup) = some [] ∧
    Pcre.args (ascii "abc") (some noGroup) = some [] ∧
    Posix.args (ascii "abc") (some noGroup) = none ∧
    ¬ Agree (ascii "abc") (some oneGroup) := by
  refine ⟨by decide +kernel, by decide +kernel, by decide +kernel, by decide +kernel, fun h => ?_⟩
  exact absurd h.1 (by decide +kernel)

end IvyBus.Builds
