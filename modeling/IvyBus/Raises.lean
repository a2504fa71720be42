import IvyBus.ClosingLaws
import IvyBus.Pairing

namespace IvyBus.Pairing

open Lib Ivy Closing

variable {Code : Type}

def raised (os : List Output) : List Handle :=
  os.filterMap fun
    | .connected c => some c
    | _ => none

def Raises (s s' : Ivy Code) (cs : List Handle) : Prop :=
  ∃ os, s'.outputs = s.outputs ++ os ∧ raised os = cs

/-- Neither a `Connected` nor a line that `ClientCall` writes. -/
def Mild : Output → Prop
  | .connected _ => False
  | .send _ text => kindOf text ≠ some .msg
  | _ => True

def Mutters (s s' : Ivy Code) : Prop := ∃ os, s'.outputs = s.outputs ++ os ∧ ∀ o ∈ os, Mild o

section Mutters

variable {engine : Engine Code} {s u s' : Ivy Code} {c : Handle} {r : Str} {client : IvyClient}

theorem Mutters.refl (s : Ivy Code) : Mutters s s :=
  ⟨[], (List.append_nil _).symm, List.forall_mem_nil _⟩

theorem Mutters.trans (h : Mutters s u) (h' : Mutters u s') : Mutters s s' := by
  obtain ⟨os, hos, hmild⟩ := h
  obtain ⟨os', hos', hmild'⟩ := h'
  refine ⟨os ++ os', ?_, List.forall_mem_append.mpr ⟨hmild, hmild'⟩⟩
  rw [hos', hos, List.append_assoc]

theorem mutters_of_outputs (h : s'.outputs = s.outputs) : Mutters s s' :=
  ⟨[], h.trans (List.append_nil _).symm, List.forall_mem_nil _⟩

theorem mutters_emit (s : Ivy Code) {o : Output} (h : Mild o) : Mutters s (s.emit o) :=
  ⟨[o], rfl, List.forall_mem_singleton.mpr h⟩

theorem kindOf_header (kind : MsgType) (i : Int32) (arg : Str) :
    kindOf (header kind i ++ arg) = some kind := by
  rw [kindOf, parseHeader_header, Option.bind_some, MsgType.ofInt32_toInt32]

theorem mild_msgText (c : Handle) (kind : MsgType) (h : kind ≠ .msg) (i : Int32) (arg : Str) :
    Mild (.send c (msgText kind i arg)) := by
  rw [msgText, List.append_assoc]
  intro hkind
  rw [kindOf_header] at hkind
  exact h (Option.some.inj hkind)

theorem mutters_msgSendTo (s : Ivy Code) (c : Handle) (kind : MsgType) (h : kind ≠ .msg)
    (i : Int32) (arg : Str) : Mutters s (s.msgSendTo c kind i arg) :=
  mutters_emit s (mild_msgText c kind h i arg)

theorem mutters_bindCallback (s : Ivy Code) (c : Handle) (id : Int32) (r : Str)
    (event : IvyBindEvent) : Mutters s (s.bindCallback c id r event) :=
  mutters_emit s trivial

theorem mutters_delRegexpForOneClientFromDictionary
    (h : s.delRegexpForOneClientFromDictionary r client = some s') : Mutters s s' := by
  rw [delRegexpForOneClientFromDictionary] at h
  split at h
  · exact Option.some.inj h ▸ Mutters.refl s
  · obtain ⟨l, -, rfl⟩ := Option.map_eq_some_iff.mp h
    exact mutters_of_outputs rfl

theorem mutters_delRegexpForOneClient {id : Int32} {removed : Bool}
    (h : s.delRegexpForOneClient client id = some (s', removed)) : Mutters s s' := by
  rw [delRegexpForOneClient] at h
  split at h
  · cases h
    exact Mutters.refl s
  · refine eachSafe_preserves (P := fun p : Ivy Code × Bool => Mutters s p.1)
      (fun g p p' hp _ hbody => ?_) (Mutters.refl s) h
    split at hbody
    · obtain ⟨t, ht, rfl⟩ := Option.map_eq_some_iff.mp hbody
      have hdel : Mutters p.1 t := mutters_delRegexpForOneClientFromDictionary ht
      exact (hp.trans hdel).trans (mutters_of_outputs rfl)
    · exact Option.some.inj hbody ▸ hp

theorem mutters_addEntry (h : addEntry engine s r client = some s') : Mutters s s' := by
  rw [addEntry] at h
  split at h
  · exact Option.some.inj h ▸ mutters_of_outputs rfl
  · dsimp only at h
    split at h
    · rw [← Option.some.inj h]
      exact (mutters_msgSendTo s client.client .error (by simp) ..).trans (mutters_of_outputs rfl)
    · cases h

theorem mutters_addRegexpToDictionary (h : addRegexpToDictionary engine s r client = some s') :
    Mutters s s' := by
  rw [addRegexpToDictionary] at h
  split at h
  · obtain ⟨t, ht, rfl⟩ := Option.map_eq_some_iff.mp h
    exact (mutters_addEntry ht).trans (mutters_of_outputs rfl)
  · exact Option.some.inj h ▸ mutters_of_outputs rfl

theorem addRegexp_eq (h : addRegexp engine s r client = some s') :
    ∃ u, Mutters s u ∧ s' = u.bindCallback client.client client.id r .addBind := by
  obtain ⟨t, ht, h⟩ := Option.bind_eq_some_iff.mp h
  have hdict : Mutters s t := mutters_addRegexpToDictionary ht
  split at h
  · cases h
  · refine ⟨_, hdict.trans ?_, (Option.some.inj h).symm⟩
    exact mutters_of_outputs rfl

theorem changeRegexp_eq (h : changeRegexp engine s r client = some s') :
    ∃ u, Mutters s u ∧ s' = u.bindCallback client.client client.id r .changeBind := by
  obtain ⟨v, hv, rfl⟩ := Option.map_eq_some_iff.mp h
  obtain ⟨u, hu, hglobal⟩ := Option.bind_eq_some_iff.mp hv
  obtain ⟨t, ht, hadd⟩ := Option.bind_eq_some_iff.mp hu
  have hdict : Mutters s u :=
    (mutters_delRegexpForOneClientFromDictionary ht).trans (mutters_addRegexpToDictionary hadd)
  refine ⟨v, hdict.trans ?_, rfl⟩
  rw [changeGlobal] at hglobal
  split at hglobal
  · exact Option.some.inj hglobal ▸ Mutters.refl _
  · obtain ⟨l, -, rfl⟩ := Option.map_eq_some_iff.mp hglobal
    exact mutters_of_outputs rfl

theorem addOrChangeRegexp_eq (h : addOrChangeRegexp engine s r client = some s') :
    ∃ u event, Mutters s u ∧ (event = .addBind ∨ event = .changeBind) ∧
      s' = u.bindCallback client.client client.id r event := by
  have hadd : addRegexp engine s r client = some s' → ∃ u event, Mutters s u ∧
      (event = .addBind ∨ event = .changeBind) ∧
        s' = u.bindCallback client.client client.id r event := by
    intro h
    obtain ⟨u, hu, heq⟩ := addRegexp_eq h
    exact ⟨u, .addBind, hu, Or.inl rfl, heq⟩
  rw [addOrChangeRegexp] at h
  split at h
  · exact hadd h
  · split at h
    · split at h
      · obtain ⟨u, hu, heq⟩ := changeRegexp_eq h
        exact ⟨u, .changeBind, hu, Or.inr rfl, heq⟩
      · exact hadd h
    · exact hadd h

theorem mutters_receiveDelRegexp (h : s.receiveDelRegexp client r = some s') : Mutters s s' := by
  obtain ⟨⟨t, removed⟩, ht, rfl⟩ := Option.map_eq_some_iff.mp h
  have hdel : Mutters s t := mutters_delRegexpForOneClient ht
  cases removed with
  | true => exact hdel.trans (mutters_bindCallback ..)
  | false => exact hdel

theorem mutters_receiveAddRegexp (h : receiveAddRegexp engine s client r = some s') :
    Mutters s s' := by
  rw [receiveAddRegexp] at h
  split at h
  · obtain ⟨u, event, hu, -, rfl⟩ := addOrChangeRegexp_eq h
    exact hu.trans (mutters_bindCallback ..)
  · exact Option.some.inj h ▸ mutters_bindCallback ..

theorem mutters_rejectDuplicate (s : Ivy Code) (target : Handle) :
    Mutters s (s.rejectDuplicate target) := by
  have herror : Mutters s (s.msgSendTo target .error 0 (ascii "Application already connected")) :=
    mutters_msgSendTo s target .error (by simp) ..
  have hclose : Mutters s ((s.msgSendTo target .error 0
      (ascii "Application already connected")).socketClose target) :=
    herror.trans (mutters_emit _ trivial)
  exact hclose.trans (mutters_of_outputs rfl)

theorem mutters_startRegexp (s : Ivy Code) (clnt : IvyClient) (arg : Str) :
    Mutters s (s.receiveStartRegexp clnt arg) := by
  have hname : Mutters s (s.setName clnt.client arg) := mutters_of_outputs rfl
  rw [receiveStartRegexp_eq]
  generalize s.setName clnt.client arg = u at *
  split
  · exact hname
  · exact hname.trans (mutters_rejectDuplicate ..)

theorem receive_mutters {line : Str} (h : receive engine s c line = some s') :
    heardEnd s c line = false ∧ Mutters s s' ∨ heardEnd s c line = true ∧
      ∃ i, s' = announceReady engine ((s.setId c i).emit (.connected c)) c := by
  obtain ⟨clnt, hfind, ⟨hignore, rfl⟩ | hopen⟩ := receive_cases h
  · refine Or.inl ⟨?_, Mutters.refl s'⟩
    simp [heardEnd, heard, hfind, hignore]
  have hheard : heard s c line = parseHeader line := by
    simp [heard, hfind, hopen]
  rw [heardEnd, hheard]
  cases hparse : parseHeader line with
  | none =>
    rw [receive_badFormat hfind hopen hparse] at h
    rw [← Option.some.inj h]
    refine Or.inl ⟨rfl, ?_⟩
    have herror : Mutters s (s.msgSendTo c .error 3 badFormat) :=
      mutters_msgSendTo s c .error (by simp) ..
    exact (herror.trans (mutters_msgSendTo _ c .bye (by simp) ..)).trans (mutters_emit _ trivial)
  | some hd =>
    have hid : Mutters s (s.setId c hd.id) := mutters_of_outputs rfl
    rw [receive_parsed hfind hopen hparse] at h
    rw [Option.any_some]
    cases hkind : MsgType.ofInt32 hd.kindOfMsg with
    | none =>
      rw [hkind] at h
      exact Or.inl ⟨rfl, Option.some.inj h ▸ hid⟩
    | some kind =>
      rw [hkind] at h
      cases kind with
      | addRegexp => exact Or.inl ⟨rfl, hid.trans (mutters_receiveAddRegexp h)⟩
      | delRegexp => exact Or.inl ⟨rfl, hid.trans (mutters_receiveDelRegexp h)⟩
      | startRegexp =>
        exact Or.inl ⟨rfl, Option.some.inj h ▸ hid.trans (mutters_startRegexp ..)⟩
      | endRegexp => exact Or.inr ⟨rfl, hd.id, (Option.some.inj h).symm⟩
      | bye => exact Or.inl ⟨rfl, Option.some.inj h ▸ hid.trans (mutters_emit _ trivial)⟩
      | ping =>
        exact Or.inl ⟨rfl, Option.some.inj h ▸ hid.trans (mutters_msgSendTo _ c .pong (by simp) ..)⟩
      | msg => exact Or.inl ⟨rfl, Option.some.inj h ▸ hid⟩
      | error => exact Or.inl ⟨rfl, Option.some.inj h ▸ hid⟩
      | directMsg => exact Or.inl ⟨rfl, Option.some.inj h ▸ hid⟩
      | die => exact Or.inl ⟨rfl, Option.some.inj h ▸ hid⟩
      | pong => exact Or.inl ⟨rfl, Option.some.inj h ▸ hid⟩

theorem mutters_sendService (engine : Engine Code) (hnew : s.findClient c = none) (appname : Str) :
    Mutters s (sendService engine s c appname) := by
  rw [sendService_eq engine hnew]
  refine ⟨s.greeting c, rfl, fun o ho => ?_⟩
  rcases List.mem_cons.mp ho with rfl | ho
  · exact mild_msgText c .startRegexp (by simp) _ _
  · rcases List.mem_append.mp ho with ho | ho
    · obtain ⟨msg, -, rfl⟩ := List.mem_map.mp ho
      exact mild_msgText c .addRegexp (by simp) _ _
    · exact List.mem_singleton.mp ho ▸ mild_msgText c .endRegexp (by simp) _ _

theorem mutters_msgSendToAll (s : Ivy Code) (kind : MsgType) (h : kind ≠ .msg) (i : Int32)
    (arg : Str) : Mutters s (s.msgSendToAll kind i arg) := by
  rw [msgSendToAll, Network.foldl_msgSendToAll]
  refine ⟨_, rfl, fun o ho => ?_⟩
  obtain ⟨clnt, -, rfl⟩ := List.mem_map.mp ho
  exact mild_msgText clnt.client kind h i arg

theorem mutters_ivyBindMsg {regexp : Str} (hs' : ivyBindMsg s regexp = some s') :
    Mutters s s' := by
  rw [ivyBindMsg] at hs'
  split at hs'
  · cases hs'
  · exact Option.some.inj hs' ▸ mutters_msgSendToAll _ .addRegexp (by simp) _ _

theorem mutters_ivyUnbindMsg {addr : Nat} (hs' : ivyUnbindMsg s addr = some s') :
    Mutters s s' := by
  obtain ⟨msg, -, rfl⟩ := Option.map_eq_some_iff.mp hs'
  exact mutters_msgSendToAll _ .delRegexp (by simp) _ _

theorem mutters_clientCreate (engine : Engine Code) (hnew : s.findClient c = none)
    (appname : Str) : Mutters s (clientCreate engine s c appname) := by
  rw [clientCreate]
  split
  · exact mutters_emit s trivial
  · exact mutters_sendService engine hnew appname

end Mutters

section Raises

variable {engine : Engine Code} {s u s' : Ivy Code} {cs cs' : List Handle} {c : Handle}

theorem Raises.trans (h : Raises s u cs) (h' : Raises u s' cs') : Raises s s' (cs ++ cs') := by
  obtain ⟨os, hos, rfl⟩ := h
  obtain ⟨os', hos', rfl⟩ := h'
  refine ⟨os ++ os', ?_, List.filterMap_append⟩
  rw [hos', hos, List.append_assoc]

theorem Raises.grows (h : Raises s s' cs) : s.outputs <+: s'.outputs := by
  obtain ⟨os, hos, -⟩ := h
  exact ⟨os, hos.symm⟩

theorem raised_sends {os : List Output} (h : ∀ o ∈ os, ∃ c bytes, o = .send c bytes) :
    raised os = [] := by
  rw [raised, List.filterMap_eq_nil_iff]
  intro o ho
  obtain ⟨c, bytes, rfl⟩ := h o ho
  rfl

theorem Mutters.raises (h : Mutters s s') : Raises s s' [] := by
  obtain ⟨os, hos, hmild⟩ := h
  refine ⟨os, hos, List.filterMap_eq_nil_iff.mpr fun o ho => ?_⟩
  cases o with
  | connected c => exact absurd (hmild _ ho) id
  | send c bytes => rfl
  | close c => rfl
  | bind c id r event => rfl

theorem raises_announceReady (engine : Engine Code) (s : Ivy Code) (c : Handle) :
    Raises s (announceReady engine s c) [] := by
  rw [announceReady_eq]
  split
  · split
    · rw [clientCall_eq]
      refine ⟨_, rfl, raised_sends fun o ho => ?_⟩
      exact ⟨c, mem_ownLines _ _ _ _ ho⟩
    · exact ⟨[], (List.append_nil _).symm, rfl⟩
  · exact ⟨[], (List.append_nil _).symm, rfl⟩

theorem raises_receive {line : Str} (h : receive engine s c line = some s') :
    Raises s s' (if heardEnd s c line then [c] else []) := by
  rcases receive_mutters h with ⟨hheard, hmutters⟩ | ⟨hheard, i, rfl⟩
  · rw [hheard]
    exact hmutters.raises
  · have hraise : Raises s ((s.setId c i).emit (.connected c)) [c] := ⟨[.connected c], rfl, rfl⟩
    rw [hheard]
    exact hraise.trans (raises_announceReady engine _ c)

theorem Raises.of_announces (h : Handles.Announces s s') : Raises s s' [] := by
  obtain ⟨bytes, hout⟩ := h.outputs_eq
  refine ⟨_, hout, raised_sends fun o ho => ?_⟩
  obtain ⟨clnt, -, rfl⟩ := List.mem_map.mp ho
  exact ⟨_, _, rfl⟩

end Raises

end IvyBus.Pairing
