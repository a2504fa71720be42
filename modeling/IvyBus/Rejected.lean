import IvyBus.Raises

namespace IvyBus.Rejected

open Lib Ivy Closing
open Pairing (Mutters)

variable {Code : Type}

def news (s s' : Ivy Code) : List Output := s'.outputs.drop s.outputs.length

/-- The sender is answered with an error, the application is not called, and the subscriptions
are as they were. -/
structure RefusedCleanly (s s' : Ivy Code) (c : Handle) : Prop where
  answered : ∃ id arg, .send c (msgText .error id arg) ∈ news s s'
  not_added : ∀ d id r, .bind d id r .addBind ∉ news s s'
  not_changed : ∀ d id r, .bind d id r .changeBind ∉ news s s'
  unchanged : Unchanged s s'

/-- An `AddRegexp` line with a regexp that `IvyBindingCompile` rejects. -/
structure BadRegexp (engine : Engine Code) (line : Str) (h : Header) : Prop where
  parses : parseHeader line = some h
  addRegexp : MsgType.ofInt32 h.kindOfMsg = some .addRegexp
  rejected : ∃ e, ivyBindingCompile engine h.arg = .error e

section Added

variable {engine : Engine Code} {s u s' : Ivy Code} {c : Handle} {clnt : IvyClient} {r : Str}
  {line : Str} {h : Header}

theorem news_self (s : Ivy Code) : news s s = [] := List.drop_length

theorem news_extend (s : Ivy Code) (os : List Output) : news s (s.extend os) = os :=
  List.drop_left

theorem mem_news_of_mutters (h : Mutters s u) (o : Output) : o ∈ news s (u.emit o) := by
  obtain ⟨os, hos, -⟩ := h
  change o ∈ (u.outputs ++ [o]).drop s.outputs.length
  rw [hos, List.append_assoc, List.drop_left]
  exact List.mem_append_right _ (List.mem_singleton_self o)

theorem addOrChangeRegexp_tells (hs' : addOrChangeRegexp engine s r clnt = some s') :
    .bind clnt.client clnt.id r .addBind ∈ news s s' ∨
      .bind clnt.client clnt.id r .changeBind ∈ news s s' := by
  obtain ⟨u, event, hu, rfl | rfl, rfl⟩ := Pairing.addOrChangeRegexp_eq hs'
  · exact Or.inl (mem_news_of_mutters hu _)
  · exact Or.inr (mem_news_of_mutters hu _)

theorem added (hwf : s.Wf) (hs' : addOrChangeRegexp engine s r clnt = some s') :
    ¬ Unchanged s s' ∧ (.bind clnt.client clnt.id r .addBind ∈ news s s' ∨
      .bind clnt.client clnt.id r .changeBind ∈ news s s') :=
  ⟨fun hsame => dict_addOrChangeRegexp hwf hs' hsame.dict, addOrChangeRegexp_tells hs'⟩

theorem BadRegexp.receive_cases (hbad : BadRegexp engine line h) (hwf : s.Wf)
    (hs' : receive engine s c line = some s') :
    news s s' = [] ∨ news s s' = [.bind c h.id h.arg .filterBind] ∨ ¬ Unchanged s s' ∧
      (.bind c h.id h.arg .addBind ∈ news s s' ∨ .bind c h.id h.arg .changeBind ∈ news s s') := by
  obtain ⟨clnt, hfind, ⟨-, rfl⟩ | hopen⟩ := Ivy.receive_cases hs'
  · exact Or.inl (news_self _)
  · have hc : clnt.client = c := client_of_findClient hfind
    rw [receive_parsed hfind hopen hbad.parses, hbad.addRegexp] at hs'
    dsimp only at hs'
    rw [receiveAddRegexp] at hs'
    split at hs'
    · have htells := tells_setId s c h.id
      obtain ⟨hchanged, htold⟩ := added (hwf.setId c h.id).wf hs'
      refine Or.inr (Or.inr ⟨fun hsame => hchanged ⟨?_, fun d => ?_⟩, hc ▸ htold⟩)
      · exact hsame.dict.trans htells.unchanged.dict.symm
      · exact (hsame.srcRegs d).trans (htells.unchanged.srcRegs d).symm
    · rw [← Option.some.inj hs', hc]
      exact Or.inr (Or.inl (news_extend s _))

theorem BadRegexp.not_refusedCleanly (hbad : BadRegexp engine line h) (hwf : s.Wf)
    (hs' : receive engine s c line = some s') : ¬ RefusedCleanly s s' c := by
  intro hclean
  obtain ⟨id, arg, hanswer⟩ := hclean.answered
  rcases hbad.receive_cases hwf hs' with hnone | hfilter | ⟨hchanged, -⟩
  · rw [hnone] at hanswer
    cases hanswer
  · rw [hfilter, List.mem_singleton] at hanswer
    cases hanswer
  · exact hchanged hclean.unchanged

end Added

/-- In no state that a run reaches is a regexp that does not compile refused cleanly. -/
theorem never_refusedCleanly (engine : Engine Code) (s : Ivy Code) (hooks : Hooks)
    (es : List Event) {a : Agent Code} (hrun : run (next engine) (alone s hooks) es = some a)
    {line : Str} {h : Header} (hbad : BadRegexp engine line h) (c : Handle) :
    ¬ ∃ s', receive engine a.ivy c line = some s' ∧ RefusedCleanly a.ivy s' c := by
  have hinv : Inv a := run_invariant (Q := fun _ _ => True) (fun _ _ _ h _ => h.next)
    (inv_alone s hooks) (along_of_forall (fun _ _ => trivial) _ _) hrun
  rintro ⟨s', hs', hclean⟩
  exact hbad.not_refusedCleanly hinv.wf hs' hclean

def rejecting : Engine Str where
  compile expression :=
    if expression = ascii "(" then .error (1, ascii "missing )") else .ok expression
  exec := literal.exec

def badLine : Str := header .addRegexp 5 ++ ascii "("

theorem badRegexp_badLine : BadRegexp rejecting badLine ⟨1, 5, ascii "("⟩ :=
  ⟨by decide, by decide, _, rfl⟩

def oneSubscriber : List Event :=
  [.accept 1 ⟨1, 0, 0⟩ [], .accept 2 ⟨1, 0, 0⟩ [], .select, .read 1 (.bytes (badLine ++ [lf])),
    .dispatch]

theorem never_refusedCleanly_second : ∃ a,
    run (next rejecting) (alone default allHooks) oneSubscriber = some a ∧
      ¬ ∃ s', receive rejecting a.ivy 2 badLine = some s' ∧ RefusedCleanly a.ivy s' 2 :=
  ⟨_, rfl, never_refusedCleanly rejecting default allHooks oneSubscriber rfl badRegexp_badLine 2⟩

/-- The first client was answered, but its subscription is in the dictionary and the application
was told of it; the second client is not even answered. -/
theorem rejected_subscribes : ∃ a s',
    run (next rejecting) (alone default allHooks) oneSubscriber = some a ∧
      .bind 1 5 (ascii "(") .addBind ∈ a.log ∧ a.ivy.messSndByRegexp ≠ [] ∧
      receive rejecting a.ivy 2 badLine = some s' ∧
      news a.ivy s' = [.bind 2 5 (ascii "(") .addBind] ∧ ¬ RefusedCleanly a.ivy s' 2 := by
  refine ⟨_, _, rfl, by decide, List.cons_ne_nil _ _, rfl, by decide, fun hclean => ?_⟩
  exact hclean.not_added 2 5 (ascii "(") (by decide)

end IvyBus.Rejected
