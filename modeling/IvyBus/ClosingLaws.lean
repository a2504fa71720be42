import IvyBus.Closing
import IvyBus.Handles

namespace IvyBus.Closing

open Lib Ivy Socket

variable {Code : Type}

section Tables

variable {engine : Engine Code} {s u s' : Ivy Code} {c : Handle} {clnt : IvyClient} {r : Str}
  {os os' : List Output}

structure Tells (s s' : Ivy Code) (os : List Output) : Prop where
  unchanged : Unchanged s s'
  outputs_eq : s'.outputs = s.outputs ++ os

theorem Tells.refl (s : Ivy Code) : Tells s s [] :=
  ⟨⟨rfl, fun _ => rfl⟩, (List.append_nil _).symm⟩

theorem Tells.extend (h : Tells s u os) (os' : List Output) :
    Tells s (u.extend os') (os ++ os') := by
  refine ⟨⟨h.unchanged.dict, h.unchanged.srcRegs⟩, ?_⟩
  rw [Ivy.extend, h.outputs_eq, List.append_assoc]

theorem Tells.modifyClient (h : Tells s u os) {f : IvyClient → IvyClient}
    (hc : ∀ clnt, (f clnt).client = clnt.client)
    (hf : ∀ clnt, (f clnt).srcRegList = clnt.srcRegList) : Tells s (u.modifyClient c f) os := by
  refine ⟨⟨h.unchanged.dict, fun d => ?_⟩, h.outputs_eq⟩
  rw [srcRegs_modifyClient hc hf]
  exact h.unchanged.srcRegs d

theorem Tells.trans (h : Tells s u os) (h' : Tells u s' os') : Tells s s' (os ++ os') := by
  refine ⟨⟨h'.unchanged.dict.trans h.unchanged.dict, fun c => ?_⟩, ?_⟩
  · rw [h'.unchanged.srcRegs, h.unchanged.srcRegs]
  · rw [h'.outputs_eq, h.outputs_eq, List.append_assoc]

theorem tells_setId (s : Ivy Code) (c : Handle) (i : Int32) : Tells s (s.setId c i) [] := by
  unfold setId
  exact (Tells.refl s).modifyClient (fun _ => rfl) fun _ => rfl

theorem Tells.countReady (h : Tells s u os) (c : Handle) : Tells s (u.countReady c) os := by
  unfold Ivy.countReady
  exact h.modifyClient (fun _ => rfl) fun _ => rfl

theorem Tells.setName (h : Tells s u os) (c : Handle) (arg : Str) :
    Tells s (u.setName c arg) os := by
  unfold Ivy.setName
  exact h.modifyClient (fun _ => rfl) fun _ => rfl

def Mute (os : List Output) : Prop := ∀ hooks, os.filterMap (callback hooks) = []

theorem mute_lines (b : Str) (l : List IvyClient) : Mute (l.map (matchLine b)) := by
  intro hooks
  rw [List.filterMap_map, List.filterMap_eq_nil_iff]
  exact fun _ _ => rfl

theorem mute_ownLines (engine : Engine Code) (message : Str) (c : Handle)
    (d : List (MsgSndDict Code)) : Mute (d.flatMap (ownLines engine message c)) := by
  intro hooks
  rw [List.filterMap_flatMap, List.flatMap_eq_nil_iff]
  intro msg _
  rw [ownLines]
  cases ivyBindingExec engine msg.binding message with
  | none => rfl
  | some groups => exact mute_lines _ _ hooks

theorem tells_announceReady (engine : Engine Code) (s : Ivy Code) (c : Handle) :
    ∃ os, Tells s (announceReady engine s c) os ∧ Mute os := by
  have hcount : Tells s (s.countReady c) [] := (Tells.refl s).countReady c
  rw [announceReady_eq]
  split
  · split
    · rw [clientCall_eq]
      exact ⟨_, hcount.extend _, mute_ownLines engine _ c _⟩
    · exact ⟨[], hcount, fun _ => rfl⟩
  · exact ⟨[], hcount, fun _ => rfl⟩

theorem tells_startRegexp (s : Ivy Code) (clnt : IvyClient) (arg : Str) :
    ∃ os, Tells s (s.receiveStartRegexp clnt arg) os ∧ Mute os := by
  have hname : Tells s (s.setName clnt.client arg) [] := (Tells.refl s).setName clnt.client arg
  rw [receiveStartRegexp_eq]
  generalize s.setName clnt.client arg = u at *
  split
  · exact ⟨[], hname, fun _ => rfl⟩
  · rename_i other _
    generalize u.duplicateTarget other.client clnt.client = target
    refine ⟨[.send target (msgText .error 0 (ascii "Application already connected")),
      .close target], ?_, fun _ => rfl⟩
    unfold rejectDuplicate
    refine Tells.modifyClient ?_ (fun _ => rfl) fun _ => rfl
    refine ⟨⟨hname.unchanged.dict, hname.unchanged.srcRegs⟩, ?_⟩
    change u.outputs ++ _ ++ _ = _
    rw [hname.outputs_eq, List.append_assoc, List.append_assoc]
    rfl

theorem addRegexpToDictionary_new (h : addRegexpToDictionary engine s r clnt = some s') :
    ∃ e ∈ s'.messSndByRegexp, s.brk ∈ e.clientList.map IvyClient.addr := by
  obtain ⟨u, hbrk, hfound, rfl⟩ : ∃ u : Ivy Code, u.brk = s.brk ∧ (u.findEntry r).isSome ∧
      s' = u.subscribe r clnt := by
    rw [addRegexpToDictionary] at h
    split at h
    · obtain ⟨u, hu, rfl⟩ := Option.map_eq_some_iff.mp h
      obtain ⟨b, o, rfl⟩ := addEntry_eq hu
      refine ⟨_, ?_, ?_, rfl⟩
      · rfl
      · rw [findEntry, List.find?_isSome]
        exact ⟨_, List.mem_append_right _ (List.mem_singleton_self _), decide_eq_true rfl⟩
    · rename_i hsome
      exact ⟨s, rfl, Option.isSome_of_eq_some hsome, (Option.some.inj h).symm⟩
  obtain ⟨e, he⟩ := Option.isSome_iff_exists.mp hfound
  refine ⟨_, List.mem_map_of_mem (List.mem_of_find?_eq_some he), ?_⟩
  rw [if_pos (regexpSrc_of_find? he), hbrk]
  exact List.mem_cons_self

theorem dict_ne_of_new (h : s.Wf) {brk : Nat} (hbrk : s.brk ≤ brk)
    (hnew : ∃ e ∈ s'.messSndByRegexp, brk ∈ e.clientList.map IvyClient.addr) :
    s'.messSndByRegexp ≠ s.messSndByRegexp := by
  intro heq
  obtain ⟨e, he, hmem⟩ := hnew
  rw [heq] at he
  exact Nat.lt_irrefl _ ((((h.dict.entries e he).fresh).2 brk hmem).trans_le hbrk)

theorem addRegexp_new (h : addRegexp engine s r clnt = some s') :
    ∃ e ∈ s'.messSndByRegexp, s.brk ∈ e.clientList.map IvyClient.addr := by
  obtain ⟨u, hu, h⟩ := Option.bind_eq_some_iff.mp h
  split at h
  · cases h
  · rw [← Option.some.inj h]
    have hnew := addRegexpToDictionary_new hu
    exact hnew

/-- Every `AddRegexp` that is not filtered changes the dictionary. -/
theorem dict_addOrChangeRegexp (hwf : s.Wf) (h : addOrChangeRegexp engine s r clnt = some s') :
    s'.messSndByRegexp ≠ s.messSndByRegexp := by
  have hchanged : changeRegexp engine s r clnt = some s' →
      s'.messSndByRegexp ≠ s.messSndByRegexp := by
    intro h
    obtain ⟨v, hv, rfl⟩ := Option.map_eq_some_iff.mp h
    obtain ⟨u, hu, hglobal⟩ := Option.bind_eq_some_iff.mp hv
    obtain ⟨t, ht, hadd⟩ := Option.bind_eq_some_iff.mp hu
    have hkept : Kept engine s t := kept_delRegexpForOneClientFromDictionary ht
    refine dict_ne_of_new hwf hkept.brk_le ?_
    change ∃ e ∈ v.messSndByRegexp, _
    rw [dict_changeGlobal hglobal]
    exact addRegexpToDictionary_new hadd
  have hadded : addRegexp engine s r clnt = some s' → s'.messSndByRegexp ≠ s.messSndByRegexp :=
    fun h => dict_ne_of_new hwf le_rfl (addRegexp_new h)
  rw [addOrChangeRegexp] at h
  split at h
  · exact hadded h
  · split at h
    · split at h
      · exact hchanged h
      · exact hadded h
    · exact hadded h

theorem delRegexpForOneClient_of_notMem (hwf : s.Wf) (hnode : (s.findClient clnt.client).isSome)
    {id : Int32} (hid : id ∉ (s.srcRegs clnt.client).map GlobReg.id) :
    s.delRegexpForOneClient clnt id = some (s, false) := by
  obtain ⟨s', removed, hs', -⟩ := hwf.delRegexpForOneClient hnode id
  rw [hs']
  obtain ⟨itr, hitr⟩ := Option.isSome_iff_exists.mp hnode
  rw [Ivy.delRegexpForOneClient, hitr] at hs'
  have hsame : (s', removed) = (s, false) := by
    refine eachSafe_preserves (P := fun p : Ivy Code × Bool => p = (s, false))
      (fun g p p' hp hg hbody => ?_) rfl hs'
    subst hp
    have hne : g.id ≠ id := fun heq => hid (heq ▸ List.mem_map_of_mem hg)
    rw [if_neg hne] at hbody
    exact (Option.some.inj hbody).symm
  rw [hsame]

theorem tells_delRegexp (hwf : s.Wf) (hnode : (s.findClient clnt.client).isSome) {arg : Str}
    (hid : clnt.id ∉ (s.srcRegs clnt.client).map GlobReg.id) :
    s.receiveDelRegexp clnt arg = some s := by
  rw [receiveDelRegexp, delRegexpForOneClient_of_notMem hwf hnode hid]
  rfl

theorem srcRegs_delRegexp (hwf : s.Wf) (hnode : (s.findClient clnt.client).isSome) {arg : Str}
    (hs' : s.receiveDelRegexp clnt arg = some s')
    (hid : clnt.id ∈ (s.srcRegs clnt.client).map GlobReg.id) :
    s'.srcRegs clnt.client ≠ s.srcRegs clnt.client := by
  obtain ⟨t, removed, ht, -, hsrc⟩ := hwf.delRegexpForOneClient hnode clnt.id
  rw [receiveDelRegexp, ht, Option.map_some] at hs'
  have hsame : s'.srcRegs clnt.client = t.srcRegs clnt.client := by
    rw [← Option.some.inj hs']
    split <;> rfl
  obtain ⟨g, hg, hgid⟩ := List.mem_map.mp hid
  intro heq
  rw [hsame, hsrc] at heq
  rw [← heq] at hg
  exact of_decide_eq_true (List.mem_filter.mp hg).2 hgid

end Tables

section Lines

variable {engine : Engine Code} {a : Agent Code} {c : Handle} {line : Str} {h : Header}
  {clnt : IvyClient} {s' : Ivy Code} {os : List Output} {cs : List Callback}

theorem heard_eq_some (hheard : heard a.ivy c line = some h) :
    ∃ clnt, a.ivy.findClient c = some clnt ∧ clnt.ignoreSubsequentMsg = false ∧
      parseHeader line = some h := by
  rw [heard] at hheard
  split at hheard
  · rename_i clnt hfind
    split at hheard
    · cases hheard
    · rename_i hopen
      exact ⟨clnt, hfind, Bool.not_eq_true _ ▸ hopen, hheard⟩
  · cases hheard

def Passed (engine : Engine Code) (a : Agent Code) (c : Handle) (line : Str) : Prop :=
  ∃ a', interpretation engine a c line = some a' ∧ a'.log = a.log ∧ Unchanged a.ivy a'.ivy

theorem drop_outputs (htells : Tells a.ivy s' os) : s'.outputs.drop a.ivy.outputs.length = os := by
  rw [htells.outputs_eq, List.drop_left]

theorem log_put (htells : Tells a.ivy s' os) :
    (a.put s' cs).log = a.log ++ (os.filterMap (callback a.hooks) ++ cs) := by
  change a.log ++ (s'.outputs.drop a.ivy.outputs.length).filterMap _ ++ cs = _
  rw [drop_outputs htells, List.append_assoc]

theorem log_put_iff (htells : Tells a.ivy s' os) :
    (a.put s' cs).log = a.log ↔ os.filterMap (callback a.hooks) = [] ∧ cs = [] := by
  rw [log_put htells, List.append_right_eq_self, List.append_eq_nil_iff]

theorem log_finish (a : Agent Code) (c : Handle) (h : Header) : (a.finish c h).log = a.log := by
  rw [Agent.finish]
  split
  · rfl
  · split <;> rfl
  · rfl

theorem ivy_finish (hdie : MsgType.ofInt32 h.kindOfMsg ≠ some .die) :
    (a.finish c h).ivy = a.ivy := by
  rw [Agent.finish]
  split
  · exact absurd ‹_› hdie
  · split <;> rfl
  · rfl

theorem passed_iff (hheard : heard a.ivy c line = some h)
    (hs' : receive engine a.ivy c line = some s') (htells : Tells a.ivy s' os)
    (hdie : MsgType.ofInt32 h.kindOfMsg ≠ some .die) :
    Passed engine a c line ↔
      os.filterMap (callback a.hooks) = [] ∧ calls a c h = some [] := by
  have hres : interpretation engine a c line =
      (calls a c h).map fun cs => (a.put s' cs).finish c h := by
    simp only [interpretation, hheard, hs', Option.map_some]
    cases calls a c h <;> rfl
  rw [Passed, hres]
  constructor
  · rintro ⟨a', ha', hlog, -⟩
    obtain ⟨cs, hcs, rfl⟩ := Option.map_eq_some_iff.mp ha'
    rw [log_finish, log_put_iff htells] at hlog
    exact ⟨hlog.1, hlog.2 ▸ hcs⟩
  · rintro ⟨hmute, hcs⟩
    rw [hcs]
    refine ⟨_, rfl, (log_finish ..).trans ((log_put_iff htells).mpr ⟨hmute, rfl⟩), ?_⟩
    rw [ivy_finish hdie]
    exact htells.unchanged

theorem not_passed (hheard : heard a.ivy c line = some h)
    (hdie : MsgType.ofInt32 h.kindOfMsg ≠ some .die)
    (hchanged : ∀ s', receive engine a.ivy c line = some s' → ¬ Unchanged a.ivy s') :
    ¬ Passed engine a c line := by
  rintro ⟨a', ha', -, hsame⟩
  simp only [interpretation, hheard] at ha'
  obtain ⟨cs, -, hcs⟩ := Option.bind_eq_some_iff.mp ha'
  obtain ⟨s', hs', rfl⟩ := Option.map_eq_some_iff.mp hcs
  rw [ivy_finish hdie] at hsame
  exact hchanged s' hs' hsame

theorem connected_calls (hooks : Hooks) (hmute : Mute os) :
    ([Output.connected c] ++ os).filterMap (callback hooks) = [] ↔ hooks.application = false := by
  rw [List.filterMap_append, hmute, List.append_nil]
  cases happ : hooks.application <;> simp [callback, happ]

theorem bind_calls (hooks : Hooks) (id : Int32) (r : Str) (event : IvyBindEvent) :
    [Output.bind c id r event].filterMap (callback hooks) = [] ↔ hooks.bind = false := by
  cases hbind : hooks.bind <;> simp [callback, hbind]

variable (hfind : a.ivy.findClient c = some clnt) (hopen : clnt.ignoreSubsequentMsg = false)
  (hparse : parseHeader line = some h)

include hfind hopen hparse

theorem heard_of_parsed : heard a.ivy c line = some h := by
  simp [heard, hfind, hopen, hparse]

theorem addRegexp_iff (hwf : a.ivy.Wf) (hkind : MsgType.ofInt32 h.kindOfMsg = some .addRegexp) :
    Passed engine a c line ↔
      ivyBindingFilter engine a.ivy.filter h.arg = false ∧ a.hooks.bind = false := by
  have hheard := heard_of_parsed hfind hopen hparse
  have hdie : MsgType.ofInt32 h.kindOfMsg ≠ some .die := hkind ▸ nofun
  have hcalls : calls a c h = some [] := by rw [calls, hkind]
  have hreceive := @receive_parsed Code engine a.ivy c clnt line hfind hopen h hparse
  rw [hkind] at hreceive
  dsimp only at hreceive
  rw [receiveAddRegexp] at hreceive
  change _ = if ivyBindingFilter engine a.ivy.filter h.arg = true then _ else _ at hreceive
  cases hfilter : ivyBindingFilter engine a.ivy.filter h.arg with
  | false =>
    rw [if_neg (by rw [hfilter]; nofun)] at hreceive
    have htells := (tells_setId a.ivy c h.id).extend [.bind clnt.client h.id h.arg .filterBind]
    rw [passed_iff hheard hreceive htells hdie, List.nil_append, bind_calls, and_iff_left hcalls]
    exact (and_iff_right rfl).symm
  | true =>
    rw [if_pos hfilter] at hreceive
    refine iff_of_false (not_passed hheard hdie fun s' hs' hsame => ?_) nofun
    have hid := hwf.setId c h.id
    rw [hreceive] at hs'
    exact dict_addOrChangeRegexp hid.wf hs' hsame.dict

theorem delRegexp_iff (hwf : a.ivy.Wf) (hkind : MsgType.ofInt32 h.kindOfMsg = some .delRegexp) :
    Passed engine a c line ↔ h.id ∉ (a.ivy.srcRegs c).map GlobReg.id := by
  have hheard := heard_of_parsed hfind hopen hparse
  have hdie : MsgType.ofInt32 h.kindOfMsg ≠ some .die := hkind ▸ nofun
  have hcalls : calls a c h = some [] := by rw [calls, hkind]
  have hclient : clnt.client = c := client_of_findClient hfind
  have hid := hwf.setId c h.id
  have htells := tells_setId a.ivy c h.id
  have hnode : ((a.ivy.setId c h.id).findClient c).isSome := by
    apply hid.findClient
    rw [hfind]
    rfl
  have hreceive := @receive_parsed Code engine a.ivy c clnt line hfind hopen h hparse
  rw [hkind] at hreceive
  dsimp only at hreceive
  subst hclient
  have hsrc := htells.unchanged.srcRegs clnt.client
  by_cases hmem : h.id ∈ (a.ivy.srcRegs clnt.client).map GlobReg.id
  · refine iff_of_false (not_passed hheard hdie fun s' hs' hsame => ?_) (not_not_intro hmem)
    rw [hreceive] at hs'
    rw [← hsrc] at hmem
    have hne := @srcRegs_delRegexp Code _ s' { clnt with id := h.id } hid.wf hnode h.arg hs' hmem
    exact hne ((hsame.srcRegs clnt.client).trans hsrc.symm)
  · have hsame := @tells_delRegexp Code _ { clnt with id := h.id } hid.wf hnode h.arg
      (hsrc.symm ▸ hmem)
    rw [passed_iff hheard (hreceive.trans hsame) htells hdie]
    exact iff_of_true ⟨rfl, hcalls⟩ hmem

theorem receive_tells (hadd : MsgType.ofInt32 h.kindOfMsg ≠ some .addRegexp)
    (hdel : MsgType.ofInt32 h.kindOfMsg ≠ some .delRegexp) :
    ∃ s' os, receive engine a.ivy c line = some s' ∧ Tells a.ivy s' os ∧
      ∀ hooks, os.filterMap (callback hooks) = [] ↔
        (MsgType.ofInt32 h.kindOfMsg = some .endRegexp → hooks.application = false) := by
  have htells := tells_setId a.ivy c h.id
  rw [receive_parsed hfind hopen hparse]
  cases hkind : MsgType.ofInt32 h.kindOfMsg with
  | none => exact ⟨_, _, rfl, htells, fun _ => iff_of_true rfl nofun⟩
  | some kind =>
    rw [hkind] at hadd hdel
    cases kind with
    | addRegexp => exact absurd rfl hadd
    | delRegexp => exact absurd rfl hdel
    | startRegexp =>
      obtain ⟨os, hstart, hmute⟩ := tells_startRegexp (a.ivy.setId c h.id)
        { clnt with id := h.id } h.arg
      exact ⟨_, os, rfl, htells.trans hstart, fun hooks => iff_of_true (hmute hooks) nofun⟩
    | endRegexp =>
      obtain ⟨os, hready, hmute⟩ := tells_announceReady engine
        ((a.ivy.setId c h.id).emit (.connected c)) c
      refine ⟨_, _, rfl, (htells.extend [.connected c]).trans hready, fun hooks => ?_⟩
      rw [List.nil_append, connected_calls hooks hmute]
      exact ⟨fun happ _ => happ, fun happ => happ rfl⟩
    | bye => exact ⟨_, _, rfl, htells.extend [.close c], fun _ => iff_of_true rfl nofun⟩
    | ping =>
      exact ⟨_, _, rfl, htells.extend [.send c (msgText .pong h.id [])],
        fun _ => iff_of_true rfl nofun⟩
    | msg => exact ⟨_, _, rfl, htells, fun _ => iff_of_true rfl nofun⟩
    | error => exact ⟨_, _, rfl, htells, fun _ => iff_of_true rfl nofun⟩
    | directMsg => exact ⟨_, _, rfl, htells, fun _ => iff_of_true rfl nofun⟩
    | die => exact ⟨_, _, rfl, htells, fun _ => iff_of_true rfl nofun⟩
    | pong => exact ⟨_, _, rfl, htells, fun _ => iff_of_true rfl nofun⟩

omit hfind hopen hparse in
theorem calls_iff (hadd : MsgType.ofInt32 h.kindOfMsg ≠ some .addRegexp)
    (hdel : MsgType.ofInt32 h.kindOfMsg ≠ some .delRegexp)
    (hdie : MsgType.ofInt32 h.kindOfMsg ≠ some .die) :
    (MsgType.ofInt32 h.kindOfMsg = some .endRegexp → a.hooks.application = false) ∧
      calls a c h = some [] ↔ Harmless engine a c h := by
  rw [calls, Harmless]
  cases hkind : MsgType.ofInt32 h.kindOfMsg with
  | none => exact iff_of_true ⟨nofun, rfl⟩ trivial
  | some kind =>
    rw [hkind] at hadd hdel hdie
    cases kind with
    | addRegexp => exact absurd rfl hadd
    | delRegexp => exact absurd rfl hdel
    | die => exact absurd rfl hdie
    | endRegexp => exact ⟨fun happ => happ.1 rfl, fun happ => ⟨fun _ => happ, rfl⟩⟩
    | msg =>
      rw [and_iff_right nofun]
      dsimp only
      cases a.ivy.msgRecv.find? (·.id = h.id) with
      | none => exact iff_of_true rfl nofun
      | some rcv =>
        cases argv h.arg <;> cases hmessage : a.hooks.message rcv.addr <;> simp [hmessage]
    | directMsg =>
      rw [and_iff_right nofun]
      cases a.hooks.direct <;> simp
    | pong =>
      rw [and_iff_right nofun]
      cases a.hooks.pong <;> cases a.pinged c <;> simp
    | startRegexp => exact iff_of_true ⟨nofun, rfl⟩ trivial
    | bye => exact iff_of_true ⟨nofun, rfl⟩ trivial
    | ping => exact iff_of_true ⟨nofun, rfl⟩ trivial
    | error => exact iff_of_true ⟨nofun, rfl⟩ trivial

theorem die_iff (hkind : MsgType.ofInt32 h.kindOfMsg = some .die) :
    Passed engine a c line ↔ a.hooks.die = false ∧ a.ivy.messSndByRegexp = [] ∧
      ∀ d, a.ivy.srcRegs d = [] := by
  have hheard := heard_of_parsed hfind hopen hparse
  have htells := tells_setId a.ivy c h.id
  have hreceive := @receive_parsed Code engine a.ivy c clnt line hfind hopen h hparse
  rw [hkind] at hreceive
  have hres : interpretation engine a c line = some ((a.put (a.ivy.setId c h.id)
      (if a.hooks.die then [.die c h.id] else [])).finish c h) := by
    simp only [interpretation, hheard, hreceive, calls, hkind, Option.bind_some, Option.map_some]
  have hivy : ∀ b : Agent Code, (b.finish c h).ivy = ivyCleanup b.ivy := by
    intro b
    rw [Agent.finish, hkind]
  have hlog : (a.put (a.ivy.setId c h.id) (if a.hooks.die then [.die c h.id] else [])).log =
      a.log ↔ a.hooks.die = false := by
    rw [log_put_iff htells]
    cases a.hooks.die <;> simp
  rw [Passed, hres]
  constructor
  · rintro ⟨a', ha', hsame, hdict, hsrc⟩
    obtain rfl := Option.some.inj ha'
    rw [log_finish, hlog] at hsame
    rw [hivy] at hdict hsrc
    exact ⟨hsame, hdict.symm, fun d => (hsrc d).symm⟩
  · rintro ⟨hdie, hdict, hsrc⟩
    refine ⟨_, rfl, (log_finish ..).trans (hlog.mpr hdie), ?_, fun d => ?_⟩
    · rw [hivy]
      exact hdict.symm
    · rw [hivy]
      exact (hsrc d).symm

omit hfind hopen hparse in
/-- A line that is not ignored and has a good format is passed on without trace exactly when it is
harmless. -/
theorem heard_iff (hwf : a.ivy.Wf) (hheard : heard a.ivy c line = some h) :
    Passed engine a c line ↔ Harmless engine a c h := by
  obtain ⟨clnt, hfind, hopen, hparse⟩ := heard_eq_some hheard
  by_cases hadd : MsgType.ofInt32 h.kindOfMsg = some .addRegexp
  · rw [addRegexp_iff hfind hopen hparse hwf hadd, Harmless, hadd]
  by_cases hdel : MsgType.ofInt32 h.kindOfMsg = some .delRegexp
  · rw [delRegexp_iff hfind hopen hparse hwf hdel, Harmless, hdel]
  by_cases hdie : MsgType.ofInt32 h.kindOfMsg = some .die
  · rw [die_iff hfind hopen hparse hdie, Harmless, hdie]
  · obtain ⟨s', os, hs', htells, hos⟩ :=
      @receive_tells Code engine a c line h clnt hfind hopen hparse hadd hdel
    rw [passed_iff hheard hs' htells hdie, hos, calls_iff hadd hdel hdie]

omit hfind hopen hparse in
theorem passed_of_unheard (hnode : (a.ivy.findClient c).isSome)
    (hunheard : heard a.ivy c line = none) : Passed engine a c line := by
  obtain ⟨clnt, hfind⟩ := Option.isSome_iff_exists.mp hnode
  have hres : ∀ s', receive engine a.ivy c line = some s' →
      interpretation engine a c line = some (a.put s' []) := by
    intro s' hs'
    simp only [interpretation, hunheard, hs', Option.map_some]
  cases hopen : clnt.ignoreSubsequentMsg with
  | true =>
    have htells := Tells.refl a.ivy
    exact ⟨_, hres _ (receive_ignored hfind hopen), (log_put_iff htells).mpr ⟨rfl, rfl⟩,
      htells.unchanged⟩
  | false =>
    have hbad : parseHeader line = none := by
      simpa [heard, hfind, hopen] using hunheard
    have htells := (((Tells.refl a.ivy).extend [.send c (msgText .error 3 badFormat)]).extend
      [.send c (msgText .bye 0 [])]).extend [.close c]
    exact ⟨_, hres _ (receive_badFormat hfind hopen hbad), (log_put_iff htells).mpr ⟨rfl, rfl⟩,
      htells.unchanged⟩

end Lines

def Node (s : Ivy Code) (c : Handle) : Prop := (s.findClient c).isSome

structure Nodes (a : Agent Code) : Prop where
  loop : ∀ c lines, a.loop = some (c, lines) → Node a.ivy c
  readable : ∀ c, a.readable c = true → Node a.ivy c
  opened : ∀ c ∈ a.channels, a.tobedeleted c = false → Node a.ivy c

structure Inv (a : Agent Code) : Prop where
  wf : a.ivy.Wf
  nodes : a.exited = false → Nodes a

section Steps

variable {engine : Engine Code} {a a' : Agent Code} {c : Handle} {s s' : Ivy Code}

theorem node_of_handles (h : s'.allClients.map IvyClient.client = s.allClients.map IvyClient.client)
    (hnode : Node s c) : Node s' c := by
  rw [Node, findClient_isSome] at hnode ⊢
  rwa [h]

theorem Nodes.put (h : Nodes a) (hnodes : ∀ c, Node a.ivy c → Node s' c)
    (cs : List Callback) : Nodes (a.put s' cs) := by
  refine ⟨fun c lines hloop => hnodes c (h.loop c lines hloop),
    fun c hread => hnodes c (h.readable c hread), fun c hc hmark => ?_⟩
  exact hnodes c (h.opened c hc (Bool.or_eq_false_iff.mp hmark).1)

theorem Inv.put (h : Inv a) (hwf : s'.Wf) (hnodes : ∀ c, Node a.ivy c → Node s' c)
    (cs : List Callback) : Inv (a.put s' cs) :=
  ⟨hwf, fun hexit => (h.nodes hexit).put hnodes cs⟩

theorem wf_freed (hdict : s.messSndByRegexp = []) (hclients : s.allClients = []) : s.Wf := by
  refine ⟨?_, ?_⟩
  · rw [hdict]
    exact ⟨List.nodup_nil, nofun⟩
  · rw [hclients]
    exact ⟨List.nodup_nil, nofun⟩

theorem Inv.finish (h : Inv a) (c : Handle) (hd : Header) : Inv (a.finish c hd) := by
  rw [Agent.finish]
  split
  · exact ⟨wf_freed rfl rfl, nofun⟩
  · split
    · exact ⟨h.wf, fun hexit => ⟨(h.nodes hexit).loop, (h.nodes hexit).readable,
        (h.nodes hexit).opened⟩⟩
    · exact h
  · exact h

theorem Inv.interpretation (h : Inv a) {line : Str}
    (ha' : interpretation engine a c line = some a') : Inv a' := by
  have hput : ∀ s', receive engine a.ivy c line = some s' → ∀ cs, Inv (a.put s' cs) :=
    fun s' hs' => h.put (h.wf.of_receive hs').1 fun d =>
      node_of_handles (handles_receive h.wf hs')
  rw [Closing.interpretation] at ha'
  split at ha'
  · obtain ⟨s', hs', rfl⟩ := Option.map_eq_some_iff.mp ha'
    exact hput s' hs' []
  · obtain ⟨cs, -, hrest⟩ := Option.bind_eq_some_iff.mp ha'
    obtain ⟨s', hs', rfl⟩ := Option.map_eq_some_iff.mp hrest
    exact (hput s' hs' cs).finish c _

theorem Inv.dispatch (h : Inv a) (ha' : dispatch engine a = some a') : Inv a' := by
  rw [Closing.dispatch] at ha'
  split at ha'
  · rename_i c line rest hloop
    have hinv : Inv { a with loop := some (c, rest) } := by
      refine ⟨h.wf, fun hexit => ?_⟩
      have hnodes := h.nodes hexit
      refine ⟨fun d lines hd => ?_, hnodes.readable, hnodes.opened⟩
      obtain ⟨rfl, -⟩ := Prod.mk.inj (Option.some.inj hd)
      exact hnodes.loop _ _ hloop
    exact hinv.interpretation ha'
  · rw [← Option.some.inj ha']
    exact ⟨h.wf, fun hexit => ⟨nofun, (h.nodes hexit).readable, (h.nodes hexit).opened⟩⟩

theorem deleted_nodes {l : List Handle} (h : s.Wf) (hs' : l.foldlM delOneClient s = some s') :
    s'.Wf ∧ ∀ c, c ∉ l → Node s c → Node s' c := by
  induction l generalizing s with
  | nil =>
    rw [← Option.some.inj hs']
    exact ⟨h, fun _ _ => id⟩
  | cons d l ih =>
    obtain ⟨t, ht, hrest⟩ := Option.bind_eq_some_iff.mp hs'
    have hdis := h.of_delOneClient ht
    obtain ⟨hwf, hnodes⟩ := ih hdis.wf hrest
    refine ⟨hwf, fun c hc hnode => ?_⟩
    rw [List.mem_cons, not_or] at hc
    exact hnodes c hc.2 (hdis.findClient_isSome.mpr ⟨hnode, hc.1⟩)

theorem Inv.select (h : Inv a) (hexit : a.exited = false) (hloop : a.loop = none)
    (ha' : channelDefferedDelete a = some a') : Inv a' := by
  obtain ⟨s', hs', rfl⟩ := Option.map_eq_some_iff.mp ha'
  obtain ⟨hwf, hnodes⟩ := deleted_nodes h.wf hs'
  have hopened : ∀ c ∈ a.channels.filter (!a.tobedeleted ·), Node s' c := by
    intro c hc
    obtain ⟨hc, hmark⟩ := List.mem_filter.mp hc
    rw [Bool.not_eq_true'] at hmark
    refine hnodes c (fun hmem => ?_) ((h.nodes hexit).opened c hc hmark)
    rw [(List.mem_filter.mp hmem).2] at hmark
    cases hmark
  refine ⟨hwf, fun _ => ⟨fun c lines hc => ?_, fun c hc => ?_, fun c hc _ => hopened c hc⟩⟩
  · rw [hloop] at hc
    cases hc
  · exact hopened c (of_decide_eq_true hc)

theorem Inv.open (h : Inv a) (hloop : a.loop = none) (hopen : isOpen a c = false)
    (info : SocketInfo) : (a.open c info).ivy.Wf ∧ (a.open c info).ivy.findClient c = none ∧
      (a.exited = false → ∀ {s'}, (∀ d, Node (a.open c info).ivy d → Node s' d) →
        ((s'.outputs.drop (a.open c info).ivy.outputs.length).contains (.close c) = true ∨
          Node s' c) → Nodes ((a.open c info).put s' [])) := by
  obtain ⟨hchannel, hnode⟩ := Bool.or_eq_false_iff.mp hopen
  rw [Option.isSome_eq_false_iff, Option.isNone_iff_eq_none] at hnode
  refine ⟨⟨h.wf.dict, h.wf.clients⟩, hnode, fun hexit s' hnodes hself => ?_⟩
  have hold := h.nodes hexit
  refine ⟨fun d lines hd => ?_, fun d hd => ?_, fun d hd hmark => ?_⟩
  · have hnone : a.loop = some (d, lines) := hd
    rw [hloop] at hnone
    cases hnone
  · change Function.update a.readable c false d = true at hd
    by_cases hc : d = c
    · rw [hc, Function.update_self] at hd
      cases hd
    · rw [Function.update_of_ne hc] at hd
      exact hnodes d (hold.readable d hd)
  · obtain ⟨hmark, hclose⟩ := Bool.or_eq_false_iff.mp hmark
    rcases List.mem_cons.mp hd with rfl | hmem
    · rcases hself with hself | hself
      · rw [hself] at hclose
        cases hclose
      · exact hself
    · have hc : d ≠ c := by
        rintro rfl
        rw [decide_eq_false_iff_not] at hchannel
        exact hchannel hmem
      change Function.update a.tobedeleted c false d = false at hmark
      rw [Function.update_of_ne hc] at hmark
      exact hnodes d (hold.opened d hmem hmark)

theorem sendService_nodes (hnew : s.findClient c = none) (appname : Str) :
    (∀ d, Node s d → Node (sendService engine s c appname) d) ∧
      Node (sendService engine s c appname) c := by
  simp only [Node, findClient_isSome]
  rw [sendService_eq engine hnew]
  exact ⟨fun d hd => List.mem_cons_of_mem _ hd, List.mem_cons_self⟩

theorem Inv.connect (h : Inv a) (hexit : a.exited = false) (hloop : a.loop = none)
    (hopen : isOpen a c = false) (info : SocketInfo) (appname : Str) :
    Inv ((a.open c info).put (sendService engine (a.open c info).ivy c appname) []) := by
  obtain ⟨hwf, hnew, hnodes⟩ := h.open hloop hopen info
  obtain ⟨hold, hself⟩ := @sendService_nodes Code engine c _ hnew appname
  exact ⟨(hwf.sendService engine hnew appname).1, fun _ => hnodes hexit hold (Or.inr hself)⟩

theorem Inv.accept (h : Inv a) (hexit : a.exited = false) (hloop : a.loop = none)
    (hopen : isOpen a c = false) (info : SocketInfo) (appname : Str) :
    Inv ((a.open c info).put (clientCreate engine (a.open c info).ivy c appname) []) := by
  rw [clientCreate]
  split
  · obtain ⟨hwf, hnew, hnodes⟩ := h.open hloop hopen info
    refine ⟨hwf.emit _, fun _ => hnodes hexit (fun _ => id) (Or.inl ?_)⟩
    change (((a.open c info).ivy.outputs ++ [Output.close c]).drop _).contains _ = true
    rw [List.drop_left]
    exact List.contains_iff_mem.mpr (List.mem_singleton_self _)
  · exact h.connect hexit hloop hopen info appname

theorem Inv.announces (h : Inv a) (hs' : Handles.Announces a.ivy s') : Inv (a.put s' []) := by
  refine h.put (hs'.wf h.wf) (fun d => node_of_handles ?_) []
  rw [hs'.clients_eq]

theorem Inv.read (h : Inv a) (hread : a.readable c = true) (client : Receiver) (marked : Bool)
    (lines : List Str) : Inv { a with
      client := Function.update a.client c client
      tobedeleted := Function.update a.tobedeleted c (a.tobedeleted c || marked)
      readable := Function.update a.readable c false
      loop := some (c, lines) } := by
  refine ⟨h.wf, fun hexit => ?_⟩
  have hnodes := h.nodes hexit
  refine ⟨fun d lines' hd => ?_, fun d hd => hnodes.readable d ?_,
    fun d hd hmark => hnodes.opened d hd ?_⟩
  · obtain ⟨rfl, -⟩ := Prod.mk.inj (Option.some.inj hd)
    exact hnodes.readable _ hread
  · change Function.update a.readable c false d = true at hd
    by_cases hc : d = c
    · rw [hc, Function.update_self] at hd
      cases hd
    · rwa [Function.update_of_ne hc] at hd
  · change Function.update a.tobedeleted c _ d = false at hmark
    by_cases hc : d = c
    · rw [hc, Function.update_self] at hmark
      rw [hc]
      exact (Bool.or_eq_false_iff.mp hmark).1
    · rwa [Function.update_of_ne hc] at hmark

theorem Inv.next (h : Inv a) {e : Event} (ha' : next engine a e = some a') : Inv a' := by
  cases e with
  | select =>
    refine preserved_unless h ha' fun hbusy ha' => ?_
    simp only [Bool.or_eq_true, not_or, Bool.not_eq_true] at hbusy
    exact h.select hbusy.1 (by simpa using hbusy.2) ha'
  | read c r =>
    refine preserved_unless h ha' fun hbusy ha' => ?_
    simp only [Bool.or_eq_true, not_or] at hbusy
    split at ha'
    · rw [← Option.some.inj ha']
      exact h.read (by simpa using hbusy.2) _ _ _
    · cases ha'
  | dispatch => exact preserved_unless h ha' fun _ => h.dispatch
  | connect c info appname =>
    refine preserved_unless h ha' fun hbusy ha' => ?_
    simp only [Bool.or_eq_true, not_or, Bool.not_eq_true] at hbusy
    rw [← Option.some.inj ha']
    exact h.connect hbusy.1.1 (by simpa using hbusy.1.2) hbusy.2 info appname
  | accept c info appname =>
    refine preserved_unless h ha' fun hbusy ha' => ?_
    simp only [Bool.or_eq_true, not_or, Bool.not_eq_true] at hbusy
    rw [← Option.some.inj ha']
    exact h.accept hbusy.1.1 (by simpa using hbusy.1.2) hbusy.2 info appname
  | bind regexp =>
    refine preserved_unless h ha' fun _ ha' => ?_
    obtain ⟨s', hs', rfl⟩ := Option.map_eq_some_iff.mp ha'
    exact h.announces (Handles.announces_bind hs')
  | unbind addr =>
    refine preserved_unless h ha' fun _ ha' => ?_
    obtain ⟨s', hs', rfl⟩ := Option.map_eq_some_iff.mp ha'
    exact h.announces (Handles.announces_unbind hs')
  | ping c =>
    refine preserved_unless h ha' fun _ ha' => ?_
    rw [← Option.some.inj ha']
    exact ⟨h.wf, fun hexit => ⟨(h.nodes hexit).loop, (h.nodes hexit).readable,
      (h.nodes hexit).opened⟩⟩
  | set hooks =>
    rw [← Option.some.inj ha']
    exact ⟨h.wf, fun hexit => ⟨(h.nodes hexit).loop, (h.nodes hexit).readable,
      (h.nodes hexit).opened⟩⟩

theorem Inv.notDispatched_iff (h : Inv a) (engine : Engine Code) (e : Event) :
    NotDispatched engine a e ↔ LateHarmless engine a e := by
  cases e with
  | dispatch =>
    refine forall_congr' fun c => forall_congr' fun line => forall_congr' fun hlate => ?_
    obtain ⟨hexit, -, rest, hloop⟩ := hlate
    have hres : Closing.dispatch engine a =
        Closing.interpretation engine { a with loop := some (c, rest) } c line := by
      rw [Closing.dispatch, hloop]
    have hpassed : (∃ a', Closing.dispatch engine a = some a' ∧ a'.log = a.log ∧
        Unchanged a.ivy a'.ivy) ↔ Passed engine { a with loop := some (c, rest) } c line := by
      rw [hres]
      rfl
    rw [hpassed]
    cases hheard : heard a.ivy c line with
    | none =>
      exact iff_of_true (passed_of_unheard ((h.nodes hexit).loop c _ hloop) hheard) nofun
    | some hd =>
      rw [@heard_iff Code engine { a with loop := some (c, rest) } c line hd h.wf hheard]
      exact ⟨fun hharmless hd' heq => Option.some.inj heq ▸ hharmless, fun hall => hall hd rfl⟩
  | select => exact Iff.rfl
  | read c r => exact Iff.rfl
  | connect c info appname => exact Iff.rfl
  | accept c info appname => exact Iff.rfl
  | bind regexp => exact Iff.rfl
  | unbind addr => exact Iff.rfl
  | ping c => exact Iff.rfl
  | set hooks => exact Iff.rfl

end Steps

theorem inv_alone (s : Ivy Code) (hooks : Hooks) : Inv (alone s hooks) :=
  ⟨⟨⟨List.nodup_nil, nofun⟩, ⟨List.nodup_nil, nofun⟩⟩, fun _ => ⟨nofun, nofun, nofun⟩⟩

/-- In a run no line is dispatched after its connection was closed exactly when every such line is
harmless. -/
theorem no_dispatch_after_close_iff (engine : Engine Code) (s : Ivy Code) (hooks : Hooks)
    (es : List Event) : Along (next engine) (NotDispatched engine) (alone s hooks) es ↔
      Along (next engine) (LateHarmless engine) (alone s hooks) es :=
  along_iff (fun _ e h => h.notDispatched_iff engine e) (fun _ _ _ h _ ha' => h.next ha')
    (inv_alone s hooks) es

def byeThenAdd : Str := header .bye 0 ++ [lf] ++ header .addRegexp 5 ++ ascii "foo" ++ [lf]

def allHooks : Hooks := ⟨true, true, true, true, true, fun _ => true⟩

/-- A line that was in the buffer when its connection was closed subscribes. -/
theorem dispatched_after_close : ∃ a a',
    run (next literal) (alone default allHooks) [.accept 1 ⟨1, 0, 0⟩ [], .select,
      .read 1 (.bytes byeThenAdd), .dispatch] = some a ∧
    Late a 1 (header .addRegexp 5 ++ ascii "foo") ∧ dispatch literal a = some a' ∧
      a'.log = a.log ++ [.bind 1 5 (ascii "foo") .addBind] ∧ ¬ Unchanged a.ivy a'.ivy := by
  refine ⟨_, _, rfl, ⟨rfl, by decide, _, rfl⟩, rfl, by decide, fun hsame => ?_⟩
  exact absurd (congrArg List.length hsame.dict) (by decide)

end IvyBus.Closing
