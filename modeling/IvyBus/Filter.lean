import IvyBus.Bind

namespace IvyBus

variable {Code : Type}

def tokenRegexp : Str := ascii "^\\^([a-zA-Z_0-9-]+).*"

/-- `token_extract` is compiled by the first call for which that succeeds. -/
def ivyBindingAddFilter (engine : Engine Code) (filter : Filter Code) (arg : Option Str) :
    Filter Code where
  messagesClasses := arg.toList ++ filter.messagesClasses
  tokenExtract :=
    filter.tokenExtract.or (ivyBindingCompile engine tokenRegexp).toOption

def ivyBindingSetFilter (engine : Engine Code) (filter : Filter Code) (argv : List (Option Str)) :
    Filter Code :=
  argv.foldl (ivyBindingAddFilter engine) filter

def ivyBindingRemoveFilter (filter : Filter Code) (arg : Str) : Filter Code :=
  { filter with messagesClasses := filter.messagesClasses.filter (· ≠ arg) }

namespace Filter

def empty : Filter Code := ⟨[], none⟩

inductive Call
  | add (arg : Option Str)
  | set (argv : List (Option Str))
  | remove (arg : Str)

def Call.apply (engine : Engine Code) (filter : Filter Code) : Call → Filter Code
  | .add arg => ivyBindingAddFilter engine filter arg
  | .set argv => ivyBindingSetFilter engine filter argv
  | .remove arg => ivyBindingRemoveFilter filter arg

def installed (engine : Engine Code) (calls : List Call) : Filter Code :=
  calls.foldl (Call.apply engine) empty

def isTokenChar (c : UInt8) : Bool :=
  (97 ≤ c && c ≤ 122) || (65 ≤ c && c ≤ 90) || c = 95 || (48 ≤ c && c ≤ 57) || c = 45

/-- The longest word right after the `^` of an expression. -/
def token (expression : Str) : Option Str :=
  if expression.head? = some 94 ∧ expression.tail.takeWhile isTokenChar ≠ [] then
    some (expression.tail.takeWhile isTokenChar)
  else none

/-- The engine on the expression that extracts the token. -/
def ExtractsToken (engine : Engine Code) : Prop :=
  ∃ code, engine.compile tokenRegexp = .ok code ∧
    ∀ expression, engine.exec code expression = (token expression).map fun t => [(1, t.length)]

def Matches (engine : Engine Code) (expression message : Str) : Prop :=
  ∃ code, engine.compile expression = .ok code ∧ (engine.exec code message).isSome

/-- The message begins with an installed word. -/
def Announced (filter : Filter Code) (message : Str) : Prop :=
  ∃ word ∈ filter.messagesClasses, word <+: message

/-- Every announced message that the expression matches is delivered: the expression is kept. -/
def Delivers (engine : Engine Code) (filter : Filter Code) (expression : Str) : Prop :=
  ∀ message, filter.Announced message → Matches engine expression message →
    ivyBindingFilter engine filter expression = true

/-- The expression has no token, or a token that an installed word begins with, or matches no
announced message. -/
def Harmless (engine : Engine Code) (filter : Filter Code) (expression : Str) : Prop :=
  (∀ t, token expression = some t → ∃ word ∈ filter.messagesClasses, t <+: word) ∨
    ∀ message, filter.Announced message → ¬ Matches engine expression message

variable {engine : Engine Code} {filter : Filter Code}

structure Ready (engine : Engine Code) (filter : Filter Code) : Prop where
  compiled : filter.messagesClasses ≠ [] →
    filter.tokenExtract = (engine.compile tokenRegexp).toOption
  first : filter.tokenExtract = none ∨
    filter.tokenExtract = (engine.compile tokenRegexp).toOption

theorem ready_empty : Ready engine empty := ⟨fun h => absurd rfl h, .inl rfl⟩

theorem Ready.add (h : Ready engine filter) (arg : Option Str) :
    Ready engine (ivyBindingAddFilter engine filter arg) := by
  have hcompiled : (ivyBindingAddFilter engine filter arg).tokenExtract =
      (engine.compile tokenRegexp).toOption := by
    change filter.tokenExtract.or (engine.compile tokenRegexp).toOption = _
    rcases h.first with hnone | hsome
    · rw [hnone, Option.none_or]
    · rw [hsome, Option.or_self]
  exact ⟨fun _ => hcompiled, .inr hcompiled⟩

theorem Ready.set (h : Ready engine filter) (argv : List (Option Str)) :
    Ready engine (ivyBindingSetFilter engine filter argv) := by
  induction argv generalizing filter with
  | nil => exact h
  | cons arg argv ih => exact ih (h.add arg)

theorem Ready.remove (h : Ready engine filter) (arg : Str) :
    Ready engine (ivyBindingRemoveFilter filter arg) where
  compiled hne := h.compiled fun hnil => hne (by rw [ivyBindingRemoveFilter, hnil]; rfl)
  first := h.first

theorem ready_installed (calls : List Call) : Ready engine (installed engine calls) := by
  suffices h : ∀ filter, Ready engine filter →
      Ready engine (calls.foldl (Call.apply engine) filter) from h empty ready_empty
  induction calls with
  | nil => exact fun _ h => h
  | cons call calls ih =>
    intro filter h
    apply ih
    cases call with
    | add arg => exact h.add arg
    | set argv => exact h.set argv
    | remove arg => exact h.remove arg

theorem take_eq_iff (t word : Str) : word.take t.length = t ↔ t <+: word :=
  List.prefix_iff_eq_take.trans eq_comm |>.symm

/-- With a table, an expression is kept unless it has a token that no word begins with. -/
theorem keeps_iff_token (hextract : ExtractsToken engine) (hready : Ready engine filter)
    (hwords : filter.messagesClasses ≠ []) (expression : Str) :
    ivyBindingFilter engine filter expression = true ↔
      ∀ t, token expression = some t → ∃ word ∈ filter.messagesClasses, t <+: word := by
  obtain ⟨code, hcode, hexec⟩ := hextract
  have hcompiled : filter.tokenExtract = some code := by
    rw [hready.compiled hwords, hcode]
    rfl
  have hextracted : ivyBindingExec engine filter.tokenExtract expression =
      (token expression).map fun t => [(1, t.length)] := by
    rw [hcompiled]
    exact hexec expression
  rw [ivyBindingFilter]
  by_cases hhead : expression.head? = some 94
  · rw [if_pos ⟨hhead, hwords⟩, hextracted]
    cases htoken : token expression with
    | none => exact iff_of_true rfl nofun
    | some t =>
      have hmatch : ivyBindingMatch expression (1, t.length) = t := by
        rw [token] at htoken
        split at htoken
        next =>
          rw [ivyBindingMatch, List.drop_one, ← Option.some.inj htoken]
          exact (List.prefix_iff_eq_take.mp (List.takeWhile_prefix _)).symm
        next => cases htoken
      change filter.messagesClasses.any (fun word =>
        word.take (ivyBindingMatch expression (1, t.length)).length =
          ivyBindingMatch expression (1, t.length)) = true ↔ _
      simp only [hmatch, List.any_eq_true, decide_eq_true_eq, take_eq_iff, Option.some.injEq,
        forall_eq']
  · rw [if_neg fun h => hhead h.1]
    refine iff_of_true rfl fun t htoken => ?_
    rw [token, if_neg fun h => hhead h.1] at htoken
    cases htoken

/-- No expression for an announced message is filtered exactly when it is harmless. -/
theorem deliverable_kept_iff (engine : Engine Code) (hextract : ExtractsToken engine)
    (calls : List Call) (expression : Str) :
    Delivers engine (installed engine calls) expression ↔
      Harmless engine (installed engine calls) expression := by
  by_cases hwords : (installed engine calls).messagesClasses = []
  · have hnone : ∀ message, ¬ (installed engine calls).Announced message := by
      rintro message ⟨word, hword, -⟩
      rw [hwords] at hword
      cases hword
    exact iff_of_true (fun message h => absurd h (hnone message))
      (.inr fun message h => absurd h (hnone message))
  · have hkeeps := keeps_iff_token hextract (ready_installed calls) hwords expression
    rw [Delivers, Harmless, ← hkeeps]
    constructor
    · intro hall
      refine (Classical.em _).imp (fun hkept => hkept)
        fun hdropped message hannounced hmatches => ?_
      exact hdropped (hall message hannounced hmatches)
    · rintro (hkept | hnone) message hannounced hmatches
      · exact hkept
      · exact absurd hmatches (hnone message hannounced)

/-- A regexp whose matches all begin with its token is harmless, unless an installed word is a
proper part of the token. -/
theorem harmless_of_head {expression t : Str} (htoken : token expression = some t)
    (hhead : ∀ message, Matches engine expression message → t <+: message)
    (hwords : ∀ word ∈ filter.messagesClasses, word <+: t → word = t) :
    Harmless engine filter expression := by
  by_cases hsome : ∃ message, filter.Announced message ∧ Matches engine expression message
  · obtain ⟨message, ⟨word, hword, hbegins⟩, hmatches⟩ := hsome
    refine .inl fun t' ht' => ⟨word, hword, ?_⟩
    rw [htoken] at ht'
    cases ht'
    rcases List.prefix_or_prefix_of_prefix (hhead message hmatches) hbegins with hle | hle
    · exact hle
    · exact hwords word hword hle ▸ List.prefix_rfl
  · exact .inr fun message hannounced hmatches => hsome ⟨message, hannounced, hmatches⟩

def anchored : Engine Str where
  compile expression := .ok expression
  exec code message :=
    if code = tokenRegexp then (token message).map fun t => [(1, t.length)]
    else if code.head? = some 94 ∧ code.tail <+: message then some []
    else none

theorem extractsToken_anchored : ExtractsToken anchored :=
  ⟨tokenRegexp, rfl, fun _ => by simp only [anchored, if_true]⟩

theorem deliverable_kept_iff_track :
    Delivers anchored (installed anchored [.add (some (ascii "TRACKMOVED"))]) (ascii "^TRACK") := by
  refine (deliverable_kept_iff anchored extractsToken_anchored _ _).mpr (.inl fun t ht => ?_)
  have htrack : t = ascii "TRACK" := Option.some.inj (ht.symm.trans (by decide))
  exact ⟨ascii "TRACKMOVED", by decide, htrack ▸ by decide⟩

/-- The messages of the class `TRACK` include those that begin with `TRACKMOVED`. -/
theorem deliverable_filtered :
    ¬ Delivers anchored (installed anchored [.add (some (ascii "TRACK"))])
      (ascii "^TRACKMOVED") := by
  intro hall
  have hkept := hall (ascii "TRACKMOVED") ⟨ascii "TRACK", by decide, by decide⟩
    ⟨ascii "^TRACKMOVED", rfl, by decide⟩
  exact absurd hkept (by decide)

end Filter

end IvyBus
