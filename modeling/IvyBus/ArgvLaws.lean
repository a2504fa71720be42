import IvyBus.Argv
import IvyBus.WireLaws

namespace IvyBus.Argv

open Lib Buffer

section Split

/-- The arguments of a text: each ends in the separator, but for one that ends with the text. -/
inductive Splits : Str → List Str → Prop
  | nil : Splits [] []
  | last {arg : Str} : arg ≠ [] → argEnd ∉ arg → Splits arg [arg]
  | cons {arg rest : Str} {args : List Str} : argEnd ∉ arg → Splits rest args →
      Splits (arg ++ argEnd :: rest) (arg :: args)

theorem exists_splits (text : Str) : ∃ args, Splits text args := by
  induction hlen : text.length using Nat.strong_induction_on generalizing text with
  | _ n ih =>
    by_cases hsep : argEnd ∈ text
    · obtain ⟨arg, rest, rfl, hnot⟩ := List.eq_append_cons_of_mem hsep
      rw [List.length_append, List.length_cons] at hlen
      obtain ⟨args, hargs⟩ := ih rest.length (by omega) rest rfl
      exact ⟨arg :: args, .cons hnot hargs⟩
    · cases text with
      | nil => exact ⟨[], .nil⟩
      | cons c text => exact ⟨[c :: text], .last (List.cons_ne_nil c text) hsep⟩

theorem splits_flatMap (args : List Str) (h : ∀ arg ∈ args, argEnd ∉ arg) :
    Splits (args.flatMap fun arg => arg ++ [argEnd]) args := by
  induction args with
  | nil => exact .nil
  | cons arg args ih =>
    rw [List.flatMap_cons, List.append_assoc]
    exact .cons (h arg List.mem_cons_self) (ih fun a ha => h a (List.mem_cons_of_mem arg ha))

/-- One argument for each separator, and one more for what follows the last. -/
def argCount (text : Str) : Nat :=
  text.count argEnd + if text.getLast?.any (· ≠ argEnd) then 1 else 0

theorem Splits.length_eq {text : Str} {args : List Str} (h : Splits text args) :
    args.length = argCount text := by
  induction h with
  | nil => rfl
  | @last arg hne hsep =>
    have hlast : arg.getLast hne ≠ argEnd := fun heq => hsep (heq ▸ List.getLast_mem hne)
    rw [argCount, List.count_eq_zero_of_not_mem hsep, List.getLast?_eq_getLast_of_ne_nil hne]
    simp [hlast]
  | @cons arg rest args hsep _ ih =>
    rw [List.length_cons, ih, argCount, argCount, List.count_append,
      List.count_eq_zero_of_not_mem hsep, List.count_cons_self, List.getLast?_append]
    cases rest with
    | nil => rfl
    | cons c rest =>
      rw [List.getLast?_cons_cons, List.getLast?_eq_getLast_of_ne_nil (List.cons_ne_nil c rest),
        Option.some_or]
      omega

theorem takeWhile_of_notMem {sep : UInt8} {arg : Str} (h : sep ∉ arg) :
    arg.takeWhile (· ≠ sep) = arg ∧ arg.dropWhile (· ≠ sep) = [] := by
  have hall : ∀ c ∈ arg, decide (c ≠ sep) = true := fun c hc =>
    decide_eq_true (ne_of_mem_of_not_mem hc h)
  exact ⟨List.takeWhile_eq_self_iff.mpr hall, List.dropWhile_eq_nil_iff.mpr hall⟩

theorem takeWhile_separator {sep : UInt8} {arg : Str} (h : sep ∉ arg) (rest : Str) :
    (arg ++ sep :: rest).takeWhile (· ≠ sep) = arg ∧
      (arg ++ sep :: rest).dropWhile (· ≠ sep) = sep :: rest := by
  have hall : ∀ c ∈ arg, decide (c ≠ sep) = true := fun c hc =>
    decide_eq_true (ne_of_mem_of_not_mem hc h)
  have hsep : ¬ decide (sep ≠ sep) = true := by simp
  constructor
  · rw [List.takeWhile_append_of_pos hall, List.takeWhile_cons, if_neg hsep, List.append_nil]
  · rw [List.dropWhile_append_of_pos hall, List.dropWhile_cons, if_neg hsep]

theorem nextArgs_of_splits {text : Str} {args : List Str} (h : Splits text args) {fuel : Nat}
    (hfuel : text.length < fuel) : nextArgs fuel text = args := by
  have hnil (fuel : Nat) : nextArgs fuel [] = [] := by cases fuel <;> rfl
  induction h generalizing fuel with
  | nil => exact hnil fuel
  | @last arg hne hsep =>
    obtain ⟨fuel, rfl⟩ := Nat.exists_eq_add_of_lt hfuel
    rw [nextArgs, IvyBus.nextArg, if_neg hne, (takeWhile_of_notMem hsep).1,
      (takeWhile_of_notMem hsep).2]
    exact congrArg _ (hnil _)
  | @cons arg rest args hsep _ ih =>
    obtain ⟨fuel, rfl⟩ := Nat.exists_eq_add_of_lt hfuel
    have hne : arg ++ argEnd :: rest ≠ [] := by simp
    rw [nextArgs, IvyBus.nextArg, if_neg hne, (takeWhile_separator hsep rest).1,
      (takeWhile_separator hsep rest).2]
    refine congrArg (arg :: ·) (ih ?_)
    rw [List.length_append, List.length_cons]
    omega

end Split

section Line

def lineAt (before : Chars) (text : Str) : Chars := before ++ (text.map some ++ [some 0])

variable {before : Chars} {text : Str}

theorem read_at (c : UInt8) (rest : Chars) :
    Chars.read (before ++ some c :: rest) before.length = .ok c := by
  rw [Chars.read, List.getElem?_append_right (Nat.le_refl _), Nat.sub_self]
  rfl

theorem read_lineAt_nil : (lineAt before []).read before.length = .ok 0 := read_at 0 []

theorem scan_lineAt (hzero : 0 ∉ text) {fuel : Nat} (hfuel : text.length < fuel) :
    scan (lineAt before text) argEnd fuel before.length =
      .ok (before.length + (text.takeWhile (· ≠ argEnd)).length) := by
  induction text generalizing before fuel with
  | nil =>
    obtain ⟨fuel, rfl⟩ := Nat.exists_eq_add_of_lt hfuel
    rw [scan, read_lineAt_nil]
    rfl
  | cons c text ih =>
    obtain ⟨fuel, rfl⟩ := Nat.exists_eq_add_of_lt hfuel
    rw [List.mem_cons, not_or] at hzero
    have hread : (lineAt before (c :: text)).read before.length = .ok c := read_at c _
    have hmove : lineAt before (c :: text) = lineAt (before ++ [some c]) text := by
      simp only [lineAt, List.map_cons, List.cons_append, List.append_assoc, List.nil_append]
    rw [scan, hread]
    change (if _ then _ else _) = _
    by_cases hsep : c = argEnd
    · subst hsep
      rw [if_neg (by simp), List.takeWhile_cons, if_neg (by simp)]
      rfl
    · have hlen : before.length + 1 = (before ++ [some c]).length := by
        rw [List.length_append]
        rfl
      rw [if_pos ⟨Ne.symm hzero.1, hsep⟩, hmove, hlen, ih hzero.2 (by
        rw [List.length_cons]
        omega), List.takeWhile_cons, if_pos (decide_eq_true hsep), List.length_cons, ← hlen]
      congr 1
      omega

theorem scan_line (before : Chars) (hzero : 0 ∉ text) :
    scan (lineAt before text) argEnd ((lineAt before text).length + 1) before.length =
      .ok (before.length + (text.takeWhile (· ≠ argEnd)).length) := by
  refine scan_lineAt hzero ?_
  simp only [lineAt, List.length_append, List.length_map]
  omega

variable {line line' : Chars} {separator c : UInt8} {start stop : Nat}

theorem nextArg_found (hscan : scan line separator (line.length + 1) start = .ok stop)
    (hread : line.read stop = .ok separator) (hwrite : line.write stop 0 = .ok line') :
    nextArg line separator start =
      .ok ⟨if stop + 1 = start then none else some start, stop + 1, line'⟩ := by
  rw [nextArg, hscan]
  change (line.read stop >>= _) = _
  rw [hread]
  change (if separator = separator then (line.write stop 0 >>= fun line =>
    Except.ok (NextArg.mk (if stop + 1 = start then none else some start) (stop + 1) line))
      else _) = _
  rw [if_pos rfl, hwrite]
  rfl

theorem nextArg_ended (hscan : scan line separator (line.length + 1) start = .ok stop)
    (hread : line.read stop = .ok c) (hc : c ≠ separator) :
    nextArg line separator start = .ok ⟨if stop = start then none else some start, stop, line⟩ := by
  rw [nextArg, hscan]
  change (line.read stop >>= _) = _
  rw [hread]
  exact if_neg hc

theorem nextArg_nil : nextArg (lineAt before []) argEnd before.length =
    .ok ⟨none, before.length, lineAt before []⟩ := by
  rw [nextArg_ended (scan_line before List.not_mem_nil) read_lineAt_nil (by decide)]
  exact congrArg (fun arg => Except.ok (NextArg.mk arg before.length (lineAt before [])))
    (if_pos rfl)

theorem nextArg_last (before : Chars) (hne : text ≠ []) (hsep : argEnd ∉ text) (hzero : 0 ∉ text) :
    nextArg (lineAt before text) argEnd before.length =
      .ok ⟨some before.length, before.length + text.length, lineAt before text⟩ := by
  have hread : (lineAt before text).read (before.length + text.length) = .ok 0 := by
    rw [lineAt, ← List.append_assoc]
    have hlen : before.length + text.length = (before ++ text.map some).length := by
      rw [List.length_append, List.length_map]
    rw [hlen]
    exact read_at 0 []
  have hpos := List.length_pos_iff.mpr hne
  have hscan := scan_line before hzero
  rw [(takeWhile_of_notMem hsep).1] at hscan
  rw [nextArg_ended hscan hread (by decide), if_neg (by omega)]

theorem nextArg_cons (before : Chars) {rest : Str} (hsep : argEnd ∉ text)
    (hzero : 0 ∉ text ++ argEnd :: rest) :
    nextArg (lineAt before (text ++ argEnd :: rest)) argEnd before.length =
      .ok ⟨some before.length, (before ++ (text.map some ++ [some 0])).length,
        lineAt (before ++ (text.map some ++ [some 0])) rest⟩ := by
  have hsplit : lineAt before (text ++ argEnd :: rest) =
      (before ++ text.map some) ++ some argEnd :: (rest.map some ++ [some 0]) := by
    simp only [lineAt, List.map_append, List.map_cons, List.append_assoc, List.cons_append]
  have hlen : before.length + text.length = (before ++ text.map some).length := by
    rw [List.length_append, List.length_map]
  have hread : (lineAt before (text ++ argEnd :: rest)).read (before.length + text.length) =
      .ok argEnd := by
    rw [hsplit, hlen]
    exact read_at argEnd _
  have hwrite : (lineAt before (text ++ argEnd :: rest)).write (before.length + text.length) 0 =
      .ok (lineAt (before ++ (text.map some ++ [some 0])) rest) := by
    rw [hsplit, hlen, Chars.write, if_pos (by simp), List.set_append_right _ _ (Nat.le_refl _),
      Nat.sub_self, List.set_cons_zero]
    simp only [lineAt, List.append_assoc, List.cons_append, List.nil_append]
  have hstop : before.length + text.length + 1 =
      (before ++ (text.map some ++ [some 0])).length := by
    rw [← List.append_assoc, List.length_append, ← hlen]
    rfl
  have hscan := scan_line before hzero
  rw [(takeWhile_separator hsep rest).1] at hscan
  rw [nextArg_found hscan hread hwrite, if_neg (by omega), hstop]

theorem msgArgs_none {fuel : Nat} {argv : List Nat}
    (hnext : nextArg line argEnd start = .ok ⟨none, stop, line'⟩) :
    msgArgs (fuel + 1) line start argv = .ok (line', argv) := by
  rw [msgArgs, hnext]
  rfl

theorem msgArgs_some (fuel : Nat) {arg : Nat} (argv : List Nat)
    (hnext : nextArg line argEnd start = .ok ⟨some arg, stop, line'⟩) :
    msgArgs (fuel + 1) line start argv =
      if argv.length < maxMatchingArgs then msgArgs fuel line' stop (argv ++ [arg])
      else .error .bounds := by
  rw [msgArgs, hnext]
  rfl

theorem holds_lineAt (hzero : 0 ∉ text) {front : Chars}
    (hfront : before ++ (text.map some ++ [some 0]) <+: front) :
    Chars.Holds (front.drop before.length) text := by
  obtain ⟨rest, rfl⟩ := hfront
  refine ⟨hzero, ?_⟩
  rw [List.append_assoc, List.drop_left' rfl]
  exact List.prefix_append _ _

/-- The loop over the arguments stores a pointer to each as long as `argv` has room. What is
before the place is never touched. -/
theorem msgArgs_of_splits {args : List Str} (h : Splits text args) (hzero : 0 ∉ text)
    (before : Chars) {fuel : Nat} (hfuel : text.length < fuel) (argv : List Nat)
    (hargv : argv.length ≤ maxMatchingArgs) :
    (argv.length + args.length ≤ maxMatchingArgs → ∃ line ps,
      msgArgs fuel (lineAt before text) before.length argv = .ok (line, argv ++ ps) ∧
      before <+: line ∧
      List.Forall₂ (fun p arg => Chars.Holds (line.drop p) arg) ps args) ∧
    (maxMatchingArgs < argv.length + args.length →
      msgArgs fuel (lineAt before text) before.length argv = .error .bounds) := by
  induction h generalizing before fuel argv with
  | nil =>
    obtain ⟨fuel, rfl⟩ := Nat.exists_eq_add_of_lt hfuel
    refine ⟨fun _ => ⟨lineAt before [], [], ?_, List.prefix_append _ _, .nil⟩, fun hover => ?_⟩
    · rw [List.append_nil]
      exact msgArgs_none nextArg_nil
    · exact absurd hargv (Nat.not_le_of_gt hover)
  | @last arg hne hsep =>
    obtain ⟨fuel, rfl⟩ := Nat.exists_eq_add_of_lt hfuel
    have hrest : lineAt before arg = lineAt (before ++ arg.map some) [] := by
      simp only [lineAt, List.append_assoc, List.map_nil, List.nil_append]
    have hend : msgArgs (arg.length + fuel) (lineAt before arg) (before.length + arg.length)
        (argv ++ [before.length]) = .ok (lineAt before arg, argv ++ [before.length]) := by
      obtain ⟨room, hroom⟩ := Nat.exists_eq_add_of_le (List.length_pos_iff.mpr hne)
      have hlen : before.length + arg.length = (before ++ arg.map some).length := by
        rw [List.length_append, List.length_map]
      have hfuel : arg.length + fuel = room + fuel + 1 := by omega
      rw [hfuel, hlen, hrest]
      exact msgArgs_none nextArg_nil
    rw [msgArgs_some _ argv (nextArg_last before hne hsep hzero), hend]
    refine ⟨fun hfits => ?_, fun hover => if_neg (Nat.not_lt_of_ge (Nat.le_of_lt_succ hover))⟩
    refine ⟨_, [before.length], if_pos hfits, List.prefix_append _ _, .cons ?_ .nil⟩
    exact holds_lineAt hzero (List.prefix_refl _)
  | @cons arg rest args hsep _ ih =>
    obtain ⟨fuel, rfl⟩ := Nat.exists_eq_add_of_lt hfuel
    rw [msgArgs_some _ argv (nextArg_cons before hsep hzero)]
    rw [List.mem_append, not_or, List.mem_cons, not_or] at hzero
    have hlonger : (argv ++ [before.length]).length = argv.length + 1 := by
      rw [List.length_append]
      rfl
    have hloop (hroom : argv.length < maxMatchingArgs) :=
      ih hzero.2.2 (before ++ (arg.map some ++ [some 0]))
        (by rw [List.length_append, List.length_cons]; omega :
          rest.length < (arg ++ argEnd :: rest).length + fuel) (argv ++ [before.length])
        (hlonger ▸ hroom)
    rw [List.length_cons]
    refine ⟨fun hfits => ?_, fun hover => ?_⟩
    · have hroom : argv.length < maxMatchingArgs := by omega
      obtain ⟨line, ps, heq, hfront, hargs⟩ := (hloop hroom).1 (by omega)
      refine ⟨line, before.length :: ps, ?_, (List.prefix_append _ _).trans hfront,
        .cons (holds_lineAt hzero.1 hfront) hargs⟩
      rw [if_pos hroom, heq, List.append_assoc]
      rfl
    · by_cases hroom : argv.length < maxMatchingArgs
      · rw [if_pos hroom, (hloop hroom).2 (by omega)]
      · exact if_neg hroom

end Line

section Receive

variable {msgRecv : List MsgRcv} {line : CString} {h : Header}

theorem mapM_cString {line : Chars} {ps : List Nat} {args : List Str}
    (hargs : List.Forall₂ (fun p arg => Chars.Holds (line.drop p) arg) ps args) :
    ps.mapM (fun p => Chars.cString (line.drop p)) = Except.ok args := by
  induction hargs with
  | nil => rfl
  | cons hheld _ ih =>
    rw [List.mapM_cons, hheld.cString, ih]
    rfl

theorem arg_of_parseHeader {line : Str} (hparse : parseHeader line = some h) :
    ∃ front, line = front ++ h.arg := by
  rw [parseHeader] at hparse
  split at hparse
  next p arg _ hfound =>
    have hsuffix : arg <:+ line := by
      rw [IvyBus.strstr] at hfound
      split at hfound
      next => cases hfound
      next =>
        cases hfound
        exact List.dropWhile_suffix _
    obtain ⟨front, hfront⟩ := (List.drop_suffix 1 arg).trans hsuffix
    cases hparse
    exact ⟨front, hfront.symm⟩
  next => cases hparse

theorem receive_of_splits (hparse : parseHeader line.1 = some h)
    (hkind : MsgType.ofInt32 h.kindOfMsg = some .msg) {rcv : MsgRcv}
    (hrcv : msgRecv.find? (·.id = h.id) = some rcv) {args : List Str} (hargs : Splits h.arg args) :
    receive msgRecv line =
      if args.length ≤ maxMatchingArgs then .ok (some (rcv, args)) else .error .bounds := by
  obtain ⟨front, hline⟩ := arg_of_parseHeader hparse
  have hzero : 0 ∉ h.arg := fun hmem => line.2 (hline ▸ List.mem_append_right front hmem)
  have hmemory : line.1.map some ++ [some 0] = lineAt (front.map some) h.arg := by
    rw [hline, List.map_append, List.append_assoc]
    rfl
  have hplace : line.1.length - h.arg.length =
      (front.map (some : UInt8 → Option UInt8)).length := by
    rw [hline, List.length_append, List.length_map]
    omega
  rw [receive, hparse]
  change (if _ then _ else _) = _
  rw [if_pos hkind, receiveMsg, hrcv, hmemory, hplace]
  have hfuel : h.arg.length < (lineAt (front.map some) h.arg).length + 1 := by
    simp only [lineAt, List.length_append, List.length_map]
    omega
  obtain ⟨hfits, hover⟩ := msgArgs_of_splits hargs hzero (front.map some) hfuel []
    (Nat.zero_le maxMatchingArgs)
  rw [List.length_nil, Nat.zero_add] at hfits hover
  change (msgArgs _ _ _ _ >>= _) = _
  obtain hgt | hle := Nat.lt_or_ge maxMatchingArgs args.length
  · rw [if_neg (Nat.not_le_of_gt hgt), hover hgt]
    rfl
  · obtain ⟨line, ps, heq, -, hheld⟩ := hfits hle
    rw [if_pos hle, heq]
    change (ps.mapM (fun p => Chars.cString (line.drop p)) >>= _) = _
    rw [mapM_cString hheld]
    rfl

/-- The list model of the arguments is what the loop leaves in `argv`. -/
theorem receive_eq_argv (hparse : parseHeader line.1 = some h)
    (hkind : MsgType.ofInt32 h.kindOfMsg = some .msg) {rcv : MsgRcv}
    (hrcv : msgRecv.find? (·.id = h.id) = some rcv) :
    receive msgRecv line =
      (argv h.arg).elim (.error .bounds) fun args => .ok (some (rcv, args)) := by
  obtain ⟨args, hargs⟩ := exists_splits h.arg
  rw [receive_of_splits hparse hkind hrcv hargs, argv,
    nextArgs_of_splits hargs (Nat.lt_succ_self _)]
  change _ = Option.elim (if _ then _ else _) _ _
  split <;> rfl

theorem receive_other (hother : ∀ h, parseHeader line.1 = some h →
    MsgType.ofInt32 h.kindOfMsg = some .msg → msgRecv.find? (·.id = h.id) = none) :
    receive msgRecv line = .ok none := by
  rw [receive]
  split
  next => rfl
  next h hparse =>
    split
    next hkind => rw [receiveMsg, hother h hparse hkind]
    next => rfl

/-- No argument is stored behind the end of `argv`, whatever the line and the bindings, exactly when
the line is no message for a binding, or has few enough separators. -/
theorem argv_in_bounds_iff (msgRecv : List MsgRcv) (line : CString) :
    (∃ r, receive msgRecv line = .ok r) ↔
      ∀ h, parseHeader line.1 = some h → MsgType.ofInt32 h.kindOfMsg = some .msg →
        (∃ rcv ∈ msgRecv, rcv.id = h.id) → argCount h.arg ≤ maxMatchingArgs := by
  constructor
  · rintro ⟨r, hr⟩ h hparse hkind ⟨rcv, hmem, hid⟩
    obtain ⟨found, hfound⟩ := Option.isSome_iff_exists.mp
      (List.find?_isSome (p := fun rcv => rcv.id = h.id).mpr ⟨rcv, hmem, decide_eq_true hid⟩)
    obtain ⟨args, hargs⟩ := exists_splits h.arg
    rw [receive_of_splits hparse hkind hfound hargs] at hr
    split at hr
    next hle => exact hargs.length_eq ▸ hle
    next => cases hr
  · intro hcount
    by_cases hcalled : ∃ h rcv, parseHeader line.1 = some h ∧
        MsgType.ofInt32 h.kindOfMsg = some .msg ∧ msgRecv.find? (·.id = h.id) = some rcv
    · obtain ⟨h, rcv, hparse, hkind, hrcv⟩ := hcalled
      obtain ⟨args, hargs⟩ := exists_splits h.arg
      have hle := hcount h hparse hkind
        ⟨rcv, List.mem_of_find?_eq_some hrcv, by simpa using List.find?_some hrcv⟩
      rw [← hargs.length_eq] at hle
      exact ⟨_, (receive_of_splits hparse hkind hrcv hargs).trans (if_pos hle)⟩
    · refine ⟨none, receive_other fun h hparse hkind => ?_⟩
      cases hrcv : msgRecv.find? (·.id = h.id) with
      | none => rfl
      | some rcv => exact absurd ⟨h, rcv, hparse, hkind, hrcv⟩ hcalled

def manyArgs : CString :=
  ⟨header .msg 0 ++ List.replicate 121 argEnd, fun h => (List.mem_append.mp h).elim
    (notMem_header (by decide) rfl (by decide) (by decide) _ _)
    (fun h => absurd (List.eq_of_mem_replicate h) (by decide))⟩

theorem argv_overrun : receive [⟨0, 0, []⟩] manyArgs = .error .bounds ∧
    ¬ ∀ msgRecv line, ∃ r, receive msgRecv line = .ok r := by
  have hparse : parseHeader manyArgs.1 = some ⟨2, 0, List.replicate 121 argEnd⟩ :=
    parseHeader_header .msg 0 _
  have hargs : Splits (List.replicate 121 argEnd) (List.replicate 121 []) := by
    have hsplits := splits_flatMap (List.replicate 121 []) fun arg harg => by
      rw [List.eq_of_mem_replicate harg]
      exact List.not_mem_nil
    rwa [List.flatMap_replicate, List.nil_append, List.flatten_replicate_singleton] at hsplits
  have hover : receive [⟨0, 0, []⟩] manyArgs = .error .bounds := by
    rw [receive_of_splits hparse rfl rfl hargs, List.length_replicate]
    rfl
  refine ⟨hover, fun hall => ?_⟩
  obtain ⟨r, hr⟩ := hall [⟨0, 0, []⟩] manyArgs
  rw [hover] at hr
  cases hr

end Receive

section Encode

abbrev Capture := {s : Str // 0 ∉ s ∧ lf ∉ s ∧ argEnd ∉ s}

def enough : Memory := fun _ => true

def encoded (args : List Str) : Str := args.flatMap fun arg => arg ++ [argEnd]

theorem makeMessageLoop_enough {text : Str} {offset fuel : Nat} {data : Chars} {size : Nat}
    {r : Int × IvyBuffer} (hr : makeMessageLoop enough text offset fuel data size = .ok r) :
    r.2.data ≠ none := by
  induction fuel generalizing data size with
  | zero => cases hr
  | succ fuel ih =>
    cases hwrite : vsnprintf data offset (size - offset) text with
    | error e => rw [makeMessageLoop, hwrite] at hr; cases hr
    | ok data' =>
      rw [makeMessageLoop_succ hwrite] at hr
      split at hr
      next => cases hr; exact Option.some_ne_none data'
      next =>
        split at hr
        next => cases hr
        next => exact ih ((if_pos rfl).symm.trans hr)

theorem makeMessage_enough {b : IvyBuffer} {text : Str} {r : Int × IvyBuffer}
    (hr : makeMessage enough b text = .ok r) : r.2.data ≠ none := by
  rw [makeMessage] at hr
  split at hr
  next => exact makeMessageLoop_enough ((if_pos rfl).symm.trans hr)
  next => exact makeMessageLoop_enough hr

variable {b : IvyBuffer} {said text : Str}

theorem says_lt (hok : Ok b) (hint : b.size ≤ intMax) (hsaid : Says b said) :
    said.length < intMax ∧ Chars.bytes b.offset (b.data.getD []) = .ok said := by
  obtain ⟨data, hdata, -, -⟩ := hok.allocated
  have hlt := hok.offset_lt
  have hused : ¬ (b.size = 0 ∨ b.data = none) := by
    rw [hdata, not_or]
    exact ⟨by omega, Option.some_ne_none data⟩
  have hlen := hsaid.length_eq
  rw [place_used hused] at hlen
  refine ⟨by omega, ?_⟩
  rw [hdata]
  exact Chars.bytes_of_take (hsaid.written data (by omega) hdata) hlen

theorem append_ok (h : Inv b) (hsaid : Says b said) (htext : 0 ∉ text) {r : Int × IvyBuffer}
    (hr : makeMessage enough b text = .ok r) :
    Ok r.2 ∧ r.2.size ≤ intMax ∧ Says r.2 (said ++ text) := by
  have hroom : Room enough b text := by
    by_contra hroom
    exact makeMessage_enough hr (makeMessage_refused h.usable hroom hr)
  have hsays := makeMessage_says h.usable hroom hsaid hr
  obtain ⟨data, hmade, hok, hint, -⟩ := makeMessage_of_room h htext hroom
  rw [hmade] at hr
  cases hr
  exact ⟨hok, hint, hsays⟩

theorem append_exists (h : Inv b) (hsaid : Says b said) (htext : 0 ∉ text)
    (hfits : said.length + text.length < intMax) : ∃ r, makeMessage enough b text = .ok r := by
  have hplace := hsaid.length_eq
  have hroom : Room enough b text := by
    refine ⟨fun _ => rfl, fun hover => ⟨?_, rfl⟩⟩
    rw [newSize, if_neg (Nat.not_lt_of_ge hover), ← hplace]
    exact hfits
  obtain ⟨data, hmade, -⟩ := makeMessage_of_room h htext hroom
  exact ⟨_, hmade⟩

theorem Capture.notMem_append (arg : Capture) : 0 ∉ arg.1 ++ [argEnd] :=
  List.not_mem_append arg.2.1 (by decide)

def addArg (bufferArg : IvyBuffer) (arg : Str) : Checked IvyBuffer := do
  let made ← makeMessage enough bufferArg (arg ++ [argEnd])
  .ok made.2

theorem addArgs_ok {args : List Capture} (h : Inv b) (hsaid : Says b said) {b' : IvyBuffer}
    (hb' : (args.map Subtype.val).foldlM addArg b = .ok b') :
    Inv b' ∧ Says b' (said ++ encoded (args.map Subtype.val)) := by
  induction args generalizing b said with
  | nil =>
    cases hb'
    exact ⟨h, (List.append_nil said).symm ▸ hsaid⟩
  | cons arg args ih =>
    rw [List.map_cons, List.foldlM_cons] at hb'
    obtain ⟨added, hadded, hb'⟩ := bind_eq_ok.mp hb'
    obtain ⟨made, hmade, hret⟩ := bind_eq_ok.mp hadded
    cases hret
    obtain ⟨hok, hint, hsays⟩ := append_ok h hsaid arg.notMem_append hmade
    have hrest := ih ⟨hint, .inr hok⟩ hsays hb'
    rwa [List.append_assoc] at hrest

theorem addArgs_exists (args : List Capture) (h : Inv b) (hsaid : Says b said)
    (hfits : said.length + (encoded (args.map Subtype.val)).length < intMax) :
    ∃ b', (args.map Subtype.val).foldlM addArg b = .ok b' := by
  induction args generalizing b said with
  | nil => exact ⟨b, rfl⟩
  | cons arg args ih =>
    rw [List.map_cons, encoded, List.flatMap_cons, List.length_append] at hfits
    obtain ⟨made, hmade⟩ := append_exists h hsaid arg.notMem_append (by omega)
    obtain ⟨hok, hint, hsays⟩ := append_ok h hsaid arg.notMem_append hmade
    obtain ⟨b', hb'⟩ := ih ⟨hint, .inr hok⟩ hsays (by
      rw [List.length_append, encoded]
      omega)
    refine ⟨b', ?_⟩
    rw [List.map_cons, List.foldlM_cons, addArg, hmade]
    exact hb'

theorem says_restart (b : IvyBuffer) : Says { b with offset := 0 } [] :=
  ⟨(place_restart b).symm, fun _ _ _ => rfl⟩

theorem regexpCall_eq_ok (h : Inv b) (args : List Capture) (id : Int32) (stream : Str) :
    regexpCall enough b (args.map Subtype.val) id = .ok stream ↔
      (encoded (args.map Subtype.val)).length + 1 < intMax ∧
        stream = header .msg id ++ (encoded (args.map Subtype.val) ++ [lf]) := by
  have hlf : 0 ∉ [lf] := by decide
  rw [regexpCall, matchArgs]
  change ((args.map Subtype.val).foldlM addArg { b with offset := 0 } >>= _) >>= _ = _ ↔ _
  cases hargs : (args.map Subtype.val).foldlM addArg { b with offset := 0 } with
  | error e =>
    refine ⟨fun hstream => (by cases hstream), fun ⟨hfits, _⟩ => ?_⟩
    obtain ⟨b', hb'⟩ := addArgs_exists args h.restart (says_restart b) (by
      rw [List.length_nil]
      omega)
    rw [hargs] at hb'
    cases hb'
  | ok b' =>
    obtain ⟨hinv, hsays⟩ := addArgs_ok h.restart (says_restart b) hargs
    rw [List.nil_append] at hsays
    change (makeMessage enough b' [lf] >>= _) >>= _ = _ ↔ _
    cases hmade : makeMessage enough b' [lf] with
    | error e =>
      refine ⟨fun hstream => (by cases hstream), fun ⟨hfits, _⟩ => ?_⟩
      obtain ⟨r, hr⟩ := append_exists hinv hsays hlf hfits
      rw [hmade] at hr
      cases hr
    | ok made =>
      obtain ⟨hok, hint, hsays'⟩ := append_ok hinv hsays hlf hmade
      obtain ⟨hlt, hbytes⟩ := says_lt hok hint hsays'
      change (Chars.bytes made.2.offset (made.2.data.getD []) >>= _) = _ ↔ _
      rw [hbytes]
      rw [List.length_append] at hlt
      constructor
      · intro hstream
        exact ⟨hlt, (Except.ok.inj hstream).symm⟩
      · rintro ⟨-, rfl⟩
        rfl

theorem notMem_encoded {c : UInt8} (hc : c ≠ argEnd) (args : List Str)
    (hargs : ∀ arg ∈ args, c ∉ arg) : c ∉ encoded args := by
  rw [encoded, List.mem_flatMap]
  rintro ⟨arg, harg, hmem⟩
  exact List.not_mem_append (hargs arg harg) (by simpa using hc) hmem

theorem firstLine_message (args : List Capture) (id : Int32) :
    (firstLine (header .msg id ++ (encoded (args.map Subtype.val) ++ [lf]))).1 =
      header .msg id ++ encoded (args.map Subtype.val) := by
  have hargs {c : UInt8} (hnot : ∀ arg : Capture, c ∉ arg.1) :
      ∀ arg ∈ args.map Subtype.val, c ∉ arg := by
    intro arg harg
    obtain ⟨capture, -, rfl⟩ := List.mem_map.mp harg
    exact hnot capture
  have hlf : lf ∉ header .msg id ++ encoded (args.map Subtype.val) := List.not_mem_append
    (notMem_header (by decide) rfl (by decide) (by decide) _ _)
    (notMem_encoded (by decide) _ (hargs fun arg => arg.2.2.1))
  have hzero : 0 ∉ header .msg id ++ encoded (args.map Subtype.val) := List.not_mem_append
    (notMem_header (by decide) rfl (by decide) (by decide) _ _)
    (notMem_encoded (by decide) _ (hargs fun arg => arg.2.1))
  change List.takeWhile (· ≠ 0) (List.takeWhile (· ≠ lf) _) = _
  rw [← List.append_assoc, (takeWhile_separator hlf []).1]
  exact (takeWhile_of_notMem hzero).1

theorem splits_encoded (args : List Capture) :
    Splits (encoded (args.map Subtype.val)) (args.map Subtype.val) := by
  refine splits_flatMap _ fun arg harg => ?_
  obtain ⟨capture, -, rfl⟩ := List.mem_map.mp harg
  exact capture.2.2.2

/-- The callback gets the captured parts, in their order and with the empty ones, exactly when the
block that the message is put together in has an `int` for its size. -/
theorem args_round_trip (bufferArg : IvyBuffer) (h : Inv bufferArg) (args : List Capture)
    (hcount : args.length ≤ maxMatchingArgs) (id : Int32) (msgRecv : List MsgRcv) (rcv : MsgRcv)
    (hrcv : msgRecv.find? (·.id = id) = some rcv) :
    deliver enough bufferArg (args.map Subtype.val) id msgRecv =
        .ok (some (rcv, args.map Subtype.val)) ↔
      (encoded (args.map Subtype.val)).length + 1 < intMax := by
  have hsent := regexpCall_eq_ok h args id
  rw [deliver]
  constructor
  · intro hgot
    obtain ⟨stream, hstream, -⟩ := bind_eq_ok.mp hgot
    exact ((hsent stream).mp hstream).1
  · intro hfits
    rw [(hsent _).mpr ⟨hfits, rfl⟩]
    change receive msgRecv (firstLine _) = _
    have hparse : parseHeader (firstLine
        (header .msg id ++ (encoded (args.map Subtype.val) ++ [lf]))).1 =
        some ⟨MsgType.msg.toInt32, id, encoded (args.map Subtype.val)⟩ := by
      rw [firstLine_message]
      exact parseHeader_header .msg id _
    rw [receive_of_splits hparse rfl hrcv (splits_encoded args), List.length_map]
    exact if_pos hcount

theorem args_round_trip_two :
    deliver enough .null [ascii "a", []] 5 [⟨0, 5, []⟩] =
      .ok (some (⟨0, 5, []⟩, [ascii "a", []])) :=
  (args_round_trip .null inv_null [⟨ascii "a", by decide⟩, ⟨[], by decide⟩] (by decide) 5
    [⟨0, 5, []⟩] ⟨0, 5, []⟩ rfl).mpr (by decide)

def longCapture (n : Nat) : Capture :=
  have hnot {c : UInt8} (hc : c ≠ 97) : c ∉ List.replicate n (97 : UInt8) := fun h =>
    hc (List.eq_of_mem_replicate h)
  ⟨List.replicate n 97, hnot (by decide), hnot (by decide), hnot (by decide)⟩

theorem length_encoded_longCapture (n : Nat) :
    (encoded ([longCapture n].map Subtype.val)).length = n + 1 := by
  rw [List.map_singleton, encoded, List.flatMap_singleton, List.length_append, longCapture,
    List.length_replicate]
  rfl

/-- A part of a message that is as long as a message can be. -/
theorem args_lost : ¬ ∀ args : List Capture, args.length ≤ maxMatchingArgs →
    deliver enough .null (args.map Subtype.val) 5 [⟨0, 5, []⟩] =
      .ok (some (⟨0, 5, []⟩, args.map Subtype.val)) := by
  intro hall
  have hfits := (args_round_trip .null inv_null [longCapture (intMax - 1)] (Nat.succ_le_succ
    (Nat.zero_le _)) 5 [⟨0, 5, []⟩] _ rfl).mp (hall [longCapture (intMax - 1)] (Nat.succ_le_succ
      (Nat.zero_le _)))
  rw [length_encoded_longCapture] at hfits
  exact absurd hfits (by decide)

end Encode

end IvyBus.Argv
