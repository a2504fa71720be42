import IvyBus.Handles
import IvyBus.Pointers

namespace IvyBus.Pointers

open Lib Ivy Fifo Socket
open Closing (Hooks)
open Congestion (IvyApplicationEvent switchState testState)

variable {Code : Type}

section Send

variable {client : Socket.Client} {ifb : IvyFifoBuffer} {block id arg : Str} {r r1 r2 : SendResult}

theorem bufferizedSocketSendRaw_none (hifb : client.ifb = none) :
    (passes r block = true ∧ (bufferizedSocketSendRaw client block r).1.ifb = none ∧
      (bufferizedSocketSendRaw client block r).1.writable = client.writable ∧
      ((bufferizedSocketSendRaw client block r).2 = .sendOk ∨
        (bufferizedSocketSendRaw client block r).2 = .sendError)) ∨
    (passes r block = false ∧
      (bufferizedSocketSendRaw client block r).2 = .sendStateChangeToCongestion) := by
  simp only [bufferizedSocketSendRaw, hifb]
  split
  · rename_i hall
    exact .inl ⟨by simp [passes, hall], rfl, rfl, .inl rfl⟩
  · rename_i hall
    split
    · rename_i hfail
      split
      · rename_i hblock
        exact .inr ⟨by simp [passes, hall, ← hblock], rfl⟩
      · rename_i hblock
        exact .inl ⟨by simp [passes, hfail, hblock], rfl, rfl, .inr rfl⟩
    · rename_i hfail
      exact .inr ⟨by simp [passes, hall, hfail], rfl⟩

theorem socketSendRawWithId_none (hifb : client.ifb = none) :
    ((passes r1 id && passes r2 arg) = true ∧
      (socketSendRawWithId client id arg r1 r2).1.writable = client.writable ∧
      ((socketSendRawWithId client id arg r1 r2).2 = .sendOk ∨
        (socketSendRawWithId client id arg r1 r2).2 = .sendError)) ∨
    ((passes r1 id && passes r2 arg) = false ∧
      (socketSendRawWithId client id arg r1 r2).2 = .sendStateChangeToCongestion) := by
  simp only [socketSendRawWithId]
  rcases @bufferizedSocketSendRaw_none client id r1 hifb with ⟨hid, hkept, hwritable, hstate⟩ |
    ⟨hid, hstate⟩
  · have hgo : (bufferizedSocketSendRaw client id r1).2 ≠ .sendStateChangeToCongestion := by
      rcases hstate with hstate | hstate <;> rw [hstate] <;> nofun
    rw [if_neg hgo, hid, Bool.true_and]
    rcases @bufferizedSocketSendRaw_none _ arg r2 hkept with ⟨harg, -, hwritable', hstate'⟩ |
      ⟨harg, hstate'⟩
    · exact .inl ⟨harg, hwritable'.trans hwritable, hstate'⟩
    · exact .inr ⟨harg, hstate'⟩
  · rw [if_pos hstate, hid]
    exact .inr ⟨rfl, hstate⟩

theorem socketSendRawWithId_some (hifb : client.ifb = some ifb) :
    (socketSendRawWithId client id arg r1 r2).1.writable = client.writable ∧
      (socketSendRawWithId client id arg r1 r2).2 =
        if ivyFifoIsFull (ivyFifoWrite (ivyFifoWrite ifb id) arg) then .sendStateFifoFull
        else .sendStillCongestion := by
  simp only [socketSendRawWithId, bufferizedSocketSendRaw, hifb]
  refine ⟨trivial, if_neg ?_⟩
  split <;> nofun

theorem testState_eq_nil_iff : testState (socketSendRawWithId client id arg r1 r2).2 = [] ↔
    uncongested client id arg r1 r2 = true := by
  cases hifb : client.ifb with
  | none =>
    rw [uncongested, hifb, Option.isSome_none, Bool.false_or]
    rcases @socketSendRawWithId_none client id arg r1 r2 hifb with ⟨hpass, -, hstate⟩ |
      ⟨hpass, hstate⟩
    · rcases hstate with hstate | hstate <;> simp only [hstate, testState, hpass, reduceCtorEq,
        if_false]
    · simp [hstate, testState, hpass]
  | some ifb =>
    rw [(socketSendRawWithId_some hifb).2, uncongested, hifb]
    refine iff_of_true ?_ rfl
    split <;> rfl

theorem switchState_eq_nil_iff : switchState (socketSendRawWithId client id arg r1 r2).2 = [] ↔
    (uncongested client id arg r1 r2 && unfilled client id arg) = true := by
  cases hifb : client.ifb with
  | none =>
    rw [uncongested, unfilled, hifb, Option.isSome_none, Bool.false_or, Option.all_none,
      Bool.and_true]
    rcases @socketSendRawWithId_none client id arg r1 r2 hifb with ⟨hpass, -, hstate⟩ |
      ⟨hpass, hstate⟩
    · rcases hstate with hstate | hstate <;> simp only [hstate, switchState, hpass]
    · simp [hstate, switchState, hpass]
  | some ifb =>
    rw [(socketSendRawWithId_some hifb).2, uncongested, unfilled, hifb]
    cases hfull : ivyFifoIsFull (ivyFifoWrite (ivyFifoWrite ifb id) arg) <;>
      simp [switchState, hfull]

theorem writable_of_uncongested (h : uncongested client id arg r1 r2 = true) :
    (socketSendRawWithId client id arg r1 r2).1.writable = client.writable := by
  cases hifb : client.ifb with
  | none =>
    rw [uncongested, hifb, Option.isSome_none, Bool.false_or] at h
    rcases @socketSendRawWithId_none client id arg r1 r2 hifb with ⟨-, hwritable, -⟩ | ⟨hpass, -⟩
    · exact hwritable
    · rw [h] at hpass
      cases hpass
  | some ifb => exact (socketSendRawWithId_some hifb).1

end Send

section Lines

variable (engine : Engine Code) (a : Agent Code) (r1 r2 : SendResult) (msg : MsgSndDict Code)

/-- `RegexpCall` goes on to send its lines, and so does `RegexpCallUnique`. -/
theorem perform_regexpCall : ∃ clnts : List IvyClient,
    (perform engine a r1 r2 (.regexpCall msg)).pending = clnts.map .sendMsg ++ a.pending ∧
      callLines engine a.buffer msg =
        clnts.map (matchLine (perform engine a r1 r2 (.regexpCall msg)).bufferArg) := by
  rw [perform, callLines]
  cases ivyBindingExec engine msg.binding a.buffer with
  | none => exact ⟨[], rfl, rfl⟩
  | some groups => exact ⟨msg.clientList, rfl, rfl⟩

theorem perform_regexpCallUnique (c : Handle) (message : Str) : ∃ clnts : List IvyClient,
    (perform engine a r1 r2 (.regexpCallUnique msg c message)).pending =
        clnts.map .sendMsgUnique ++ a.pending ∧
      ownLines engine message c msg = clnts.map
        (matchLine (perform engine a r1 r2 (.regexpCallUnique msg c message)).bufferArgUnique) := by
  rw [perform, ownLines]
  cases ivyBindingExec engine msg.binding message with
  | none => exact ⟨[], rfl, rfl⟩
  | some groups => exact ⟨own c msg, rfl, rfl⟩

end Lines

def Own (data : Handle → Option Nat) (call : Call) : Prop :=
  ∃ app, call.app = some app ∧ data call.client = some app

def Good (data : Handle → Option Nat) : Act Code → Prop
  | .call call => Own data call
  | .msgSendTo c app _ => data c = some app
  | _ => True

/-- The invariant of the runs: `data` and `allClients` agree on the open connections. -/
structure Inv (a : Agent Code) : Prop where
  wf : a.ivy.Wf
  nodes : ∀ clnt ∈ a.ivy.allClients,
    a.isOpen clnt.client = true ∧ a.data clnt.client = some clnt.addr
  opened : ∀ c, a.isOpen c = true → a.data c ≠ none → (a.ivy.findClient c).isSome
  pending : ∀ act ∈ a.pending, Good a.data act
  calls : ∀ c, ∀ call ∈ callsOf a c, Own a.data call
  congested : a.hooks.application = true → ∀ c, (a.sock c).writable = true → a.data c ≠ none

section Step

variable {engine : Engine Code} {a a' : Agent Code} {s' : Ivy Code} {c : Handle} {app : Nat}
  {r1 r2 : SendResult}

theorem Inv.node (h : Inv a) (hopen : a.isOpen c = true) (hdata : a.data c = some app) :
    ∃ clnt, a.ivy.findClient c = some clnt ∧ clnt.addr = app := by
  obtain ⟨clnt, hfind⟩ := Option.isSome_iff_exists.mp (h.opened c hopen (by simp [hdata]))
  have hnode := (h.nodes clnt (List.mem_of_find?_eq_some hfind)).2
  rw [client_of_findClient hfind, hdata] at hnode
  exact ⟨clnt, hfind, (Option.some.inj hnode).symm⟩

theorem Inv.data_given (h : Inv a) {call : Call} (hgiven : given a call = some app) :
    a.isOpen call.client = true ∧ a.data call.client = some app := by
  rw [given] at hgiven
  split at hgiven
  · rename_i hcond
    obtain ⟨hopen, hcall⟩ := Bool.and_eq_true_iff.mp hcond
    obtain ⟨app', happ, hdata⟩ := h.calls _ call (of_decide_eq_true hcall)
    rw [hgiven] at happ
    exact ⟨hopen, by rwa [Option.some.inj happ]⟩
  · cases hgiven

theorem Inv.oneHandle (h : Inv a) : OneHandle a := by
  refine ⟨fun c call hcall => ?_, fun c hopen app hdata => h.node hopen hdata,
    fun call app hgiven => ?_⟩
  · obtain ⟨app, happ, hdata⟩ := h.calls c call hcall
    rw [of_decide_eq_true (List.mem_filter.mp hcall).2] at hdata
    exact ⟨app, happ, hdata⟩
  · obtain ⟨hopen, hdata⟩ := h.data_given hgiven
    exact h.node hopen hdata

theorem Inv.findClient_none (h : Inv a) (hopen : a.isOpen c = false) :
    a.ivy.findClient c = none := by
  rw [findClient, List.find?_eq_none]
  intro clnt hclnt heq
  have hnode := (h.nodes clnt hclnt).1
  rw [of_decide_eq_true heq, hopen] at hnode
  cases hnode

theorem Inv.call (h : Inv a) {call : Call}
    (hown : wanted a.hooks call.kind = true → Own a.data call) :
    Inv (a.call call) := by
  refine ⟨h.wf, h.nodes, h.opened, h.pending, fun c call' hcall' => ?_, h.congested⟩
  obtain ⟨hmem, hclient⟩ := List.mem_filter.mp hcall'
  change call' ∈ (if wanted a.hooks call.kind then a.log ++ [call] else a.log).drop _ at hmem
  split at hmem
  · rename_i hwanted
    rw [List.drop_append] at hmem
    rcases List.mem_append.mp hmem with hold | hnew
    · exact h.calls c call' (List.mem_filter.mpr ⟨hold, hclient⟩)
    · rw [List.mem_singleton.mp (List.mem_of_mem_drop hnew)]
      exact hown hwanted
  · exact h.calls c call' (List.mem_filter.mpr ⟨hmem, hclient⟩)

theorem Inv.raise (h : Inv a) (events : List IvyApplicationEvent)
    (hown : a.hooks.application = true → events ≠ [] → a.data c = some app) :
    Inv (events.foldl (fun a event => a.call ⟨c, some app, .application event⟩) a) := by
  induction events generalizing a with
  | nil => exact h
  | cons event events ih =>
    refine ih (h.call fun hwanted => ?_) fun happ _ => hown happ (List.cons_ne_nil _ _)
    exact ⟨app, rfl, hown hwanted (List.cons_ne_nil _ _)⟩

theorem Inv.sock (h : Inv a) (client : Socket.Client)
    (hdata : a.hooks.application = true → client.writable = true → a.data c ≠ none) :
    Inv { a with sock := Function.update a.sock c client } := by
  refine ⟨h.wf, h.nodes, h.opened, h.pending, h.calls, fun happ d hwritable => ?_⟩
  change (Function.update a.sock c client d).writable = true at hwritable
  by_cases hd : d = c
  · rw [hd, Function.update_self] at hwritable
    exact hd ▸ hdata happ hwritable
  · rw [Function.update_of_ne hd] at hwritable
    exact h.congested happ d hwritable

theorem Inv.sent (h : Inv a) {out : Socket.Client × SendState}
    {raised : SendState → List IvyApplicationEvent}
    (hdata : a.hooks.application = true → out.1.writable = true → a.data c ≠ none)
    (hown : a.hooks.application = true → raised out.2 ≠ [] → a.data c = some app) :
    Inv (a.sent c app out raised) :=
  (h.sock out.1 hdata).raise (raised out.2) hown

theorem Inv.sentWithId (h : Inv a) {clnt : IvyClient} {id arg : Str}
    {raised : SendState → List IvyApplicationEvent}
    (huncongested : a.hooks.application = true →
      uncongested (a.sock clnt.client) id arg r1 r2 = true)
    (hraised : a.hooks.application = true →
      raised (socketSendRawWithId (a.sock clnt.client) id arg r1 r2).2 = []) :
    Inv (a.sent clnt.client clnt.addr (socketSendRawWithId (a.sock clnt.client) id arg r1 r2)
      raised) := by
  refine h.sent (fun happ hwritable => ?_) fun happ hne => absurd (hraised happ) hne
  rw [writable_of_uncongested (huncongested happ)] at hwritable
  exact h.congested happ _ hwritable

theorem Inv.push (h : Inv a) {acts : List (Act Code)} (hacts : ∀ act ∈ acts, Good a.data act)
    (buffer bufferArg bufferArgUnique : Str) (pinged : Nat → Bool) :
    Inv { a with
      buffer := buffer
      bufferArg := bufferArg
      bufferArgUnique := bufferArgUnique
      pinged := pinged
      pending := acts ++ a.pending } := by
  refine ⟨h.wf, h.nodes, h.opened, fun act hact => ?_, h.calls, h.congested⟩
  exact (List.mem_append.mp hact).elim (hacts act) (h.pending act)

theorem Inv.leave (h : Inv a) (c : Handle) : Inv (perform engine a r1 r2 (.leave c)) := by
  have hclosed : ∀ d, Function.update a.isOpen c false d = true ↔ d ≠ c ∧ a.isOpen d = true := by
    intro d
    by_cases hd : d = c <;> simp [hd]
  refine ⟨⟨h.wf.dict, ?_⟩, fun clnt hclnt => ?_, fun d hopen hdata => ?_, h.pending, h.calls,
    h.congested⟩
  · exact ⟨h.wf.clients.handles.sublist (List.filter_sublist.map _),
      fun clnt hclnt => h.wf.clients.srcs clnt (List.mem_of_mem_filter hclnt)⟩
  · obtain ⟨hmem, hne⟩ := List.mem_filter.mp hclnt
    have hnode := h.nodes clnt hmem
    exact ⟨(hclosed _).mpr ⟨of_decide_eq_true hne, hnode.1⟩, hnode.2⟩
  · obtain ⟨hne, hopen⟩ := (hclosed d).mp hopen
    have hold := h.opened d hopen hdata
    rw [findClient_isSome, List.mem_map] at hold ⊢
    obtain ⟨clnt, hclnt, rfl⟩ := hold
    exact ⟨clnt, List.mem_filter.mpr ⟨hclnt, decide_eq_true hne⟩, rfl⟩

theorem Inv.perform (h : Inv a) {act : Act Code} (hgood : Good a.data act)
    (hundisturbed : a.hooks.application = true → undisturbed a r1 r2 act = true) :
    Inv (perform engine a r1 r2 act) := by
  cases act with
  | call call => exact h.call fun _ => hgood
  | msgSendTo c app text =>
    have hdata : a.data c = some app := hgood
    exact h.sent (fun _ _ => by simp [hdata]) fun _ _ => hdata
  | regexpCall msg =>
    rw [Pointers.perform]
    cases ivyBindingExec engine msg.binding a.buffer with
    | none => exact h
    | some groups =>
      refine h.push (fun act hact => ?_) ..
      obtain ⟨clnt, -, rfl⟩ := List.mem_map.mp hact
      trivial
  | regexpCallUnique msg clientUnique message =>
    rw [Pointers.perform]
    cases ivyBindingExec engine msg.binding message with
    | none => exact h
    | some groups =>
      refine h.push (fun act hact => ?_) ..
      obtain ⟨clnt, -, rfl⟩ := List.mem_map.mp hact
      trivial
  | sendMsg clnt =>
    exact h.sentWithId (fun happ => (Bool.and_eq_true_iff.mp (hundisturbed happ)).1) fun happ =>
      switchState_eq_nil_iff.mpr (hundisturbed happ)
  | sendMsgUnique clnt =>
    exact h.sentWithId hundisturbed fun happ => testState_eq_nil_iff.mpr (hundisturbed happ)
  | leave c => exact h.leave c
  | exit => exact ⟨h.wf, h.nodes, h.opened, nofun, h.calls, h.congested⟩

theorem good_actOf {data : Handle → Option Nat} {s : Ivy Code} {o : Output} {act : Act Code}
    (hnodes : ∀ clnt ∈ s.allClients, data clnt.client = some clnt.addr) (happ : data c = some app)
    (hact : actOf s c app o = some act) : Good data act := by
  cases o with
  | send d bytes =>
    rw [actOf] at hact
    split at hact
    · rename_i hd
      obtain rfl := Option.some.inj hact
      exact hd ▸ happ
    · obtain ⟨clnt, hfind, rfl⟩ := Option.map_eq_some_iff.mp hact
      have hnode := hnodes clnt (List.mem_of_find?_eq_some hfind)
      rwa [client_of_findClient hfind] at hnode
  | connected d =>
    obtain rfl := Option.some.inj hact
    exact ⟨app, rfl, happ⟩
  | bind d id r event =>
    obtain rfl := Option.some.inj hact
    exact ⟨app, rfl, happ⟩
  | close d => cases hact

theorem Inv.good_all (h : Inv a) (s' : Ivy Code) :
    ∀ act ∈ allActs a.ivy s', Good a.data act := by
  intro act hact
  obtain ⟨o, -, ho⟩ := List.mem_filterMap.mp hact
  split at ho
  · obtain ⟨clnt, hfind, rfl⟩ := Option.map_eq_some_iff.mp ho
    have hnode := (h.nodes clnt (List.mem_of_find?_eq_some hfind)).2
    rwa [client_of_findClient hfind] at hnode
  · cases ho

theorem Inv.good_cleanup (h : Inv a) : ∀ act ∈ cleanup a.ivy, Good a.data act := by
  intro act hact
  rcases List.mem_append.mp hact with hact | hact
  · obtain ⟨clnt, hclnt, hmem⟩ := List.mem_flatMap.mp hact
    rcases List.mem_cons.mp hmem with rfl | hmem
    · exact (h.nodes clnt hclnt).2
    · rw [List.mem_singleton.mp hmem]
      trivial
  · rw [List.mem_singleton.mp hact]
    trivial

theorem Inv.good_line (h : Inv a) (hdata : a.data c = some app) {line : Str}
    {acts : List (Act Code)} (hacts : lineActs a c app line s' = some acts) :
    ∀ act ∈ acts, Good a.data act := by
  have hown : ∀ kind, Good a.data (.call ⟨c, some app, kind⟩ : Act Code) :=
    fun _ => ⟨app, rfl, hdata⟩
  have hline : ∀ act ∈ (s'.outputs.drop a.ivy.outputs.length).filterMap (actOf a.ivy c app),
      Good a.data act := by
    intro act hact
    obtain ⟨o, -, ho⟩ := List.mem_filterMap.mp hact
    exact good_actOf (fun clnt hclnt => (h.nodes clnt hclnt).2) hdata ho
  intro act hact
  rw [lineActs] at hacts
  split at hacts
  · exact hline act (Option.some.inj hacts ▸ hact)
  · split at hacts
    · rw [← Option.some.inj hacts] at hact
      rcases List.mem_cons.mp hact with rfl | hact
      · exact hown _
      · split at hact
        · obtain ⟨message, -, hmem⟩ := mem_elim_nil hact
          obtain ⟨msg, -, rfl⟩ := List.mem_map.mp hmem
          trivial
        · cases hact
    · split at hacts
      · obtain ⟨args, -, rfl⟩ := Option.map_eq_some_iff.mp hacts
        rw [List.mem_singleton.mp hact]
        exact hown _
      · rw [← Option.some.inj hacts] at hact
        cases hact
    · rw [← Option.some.inj hacts] at hact
      rw [List.mem_singleton.mp hact]
      exact hown _
    · rw [← Option.some.inj hacts] at hact
      rcases List.mem_cons.mp hact with rfl | hact
      · exact hown _
      · exact h.good_cleanup act hact
    · rw [← Option.some.inj hacts] at hact
      split at hact
      · rw [List.mem_singleton.mp hact]
        exact hown _
      · cases hact
    · exact hline act (Option.some.inj hacts ▸ hact)

theorem Inv.of_places (h : Inv a) (hwf : s'.Wf)
    (hplaces : s'.allClients.map place = a.ivy.allClients.map place) {acts : List (Act Code)}
    (hacts : ∀ act ∈ acts, Good a.data act) (pinged : Nat → Bool) :
    Inv { a with ivy := s', pending := acts, pinged := pinged } := by
  refine ⟨hwf, fun clnt hclnt => ?_, fun c hopen hdata => ?_, hacts, h.calls, h.congested⟩
  · have hmem : place clnt ∈ a.ivy.allClients.map place := hplaces ▸ List.mem_map_of_mem hclnt
    obtain ⟨old, hold, heq⟩ := List.mem_map.mp hmem
    obtain ⟨haddr, hclient⟩ := Prod.mk.inj heq
    rw [← haddr, ← hclient]
    exact h.nodes old hold
  · obtain ⟨clnt, hfind⟩ := Option.isSome_iff_exists.mp (h.opened c hopen hdata)
    have hmem : place clnt ∈ s'.allClients.map place :=
      hplaces ▸ List.mem_map_of_mem (List.mem_of_find?_eq_some hfind)
    obtain ⟨new, hnew, heq⟩ := List.mem_map.mp hmem
    rw [findClient_isSome, List.mem_map]
    exact ⟨new, hnew, (Prod.mk.inj heq).2.trans (client_of_findClient hfind)⟩

theorem Inv.receive (h : Inv a) (hdata : a.data c = some app) {line : Str}
    (ha' : receive engine a c app line = some a') : Inv a' := by
  obtain ⟨s', hs', hrest⟩ := Option.bind_eq_some_iff.mp ha'
  obtain ⟨acts, hacts, rfl⟩ := Option.map_eq_some_iff.mp hrest
  have hinv := h.of_places (h.wf.of_receive hs').1 (places_receive h.wf hs')
    (h.good_line hdata hacts)
  rw [Agent.finish]
  split
  · exact hinv _
  · exact hinv _

theorem Inv.announces (h : Inv a) (hs' : Handles.Announces a.ivy s') : Inv (a.announce s') := by
  refine h.of_places (hs'.wf h.wf) (by rw [hs'.clients_eq]) (fun act hact => ?_) a.pinged
  exact (List.mem_append.mp hact).elim (h.good_all s' act) (h.pending act)

theorem pending_eq_nil (hbusy : busy a = false) : a.pending = [] := by
  have hpending := (Bool.or_eq_false_iff.mp hbusy).2
  simpa using hpending

theorem callsOf_open (info : SocketInfo) (data : Option Nat) :
    callsOf (a.open c info data) c = [] := by
  have hstart : (a.open c info data).start c = a.log.length := Function.update_self ..
  rw [callsOf, hstart]
  change (a.log.drop a.log.length).filter _ = []
  rw [List.drop_length]
  rfl

theorem callsOf_open_of_ne {d : Handle} (hd : d ≠ c) (info : SocketInfo) (data : Option Nat) :
    callsOf (a.open c info data) d = callsOf a d := by
  have hstart : (a.open c info data).start d = a.start d := Function.update_of_ne hd ..
  rw [callsOf, hstart]
  rfl

theorem Inv.open (h : Inv a) (hbusy : busy a = false) (hopen : a.isOpen c = false)
    (info : SocketInfo) (data : Option Nat) (hwf : s'.Wf)
    (hclients : ∀ clnt ∈ s'.allClients,
      clnt ∈ a.ivy.allClients ∨ clnt.client = c ∧ data = some clnt.addr)
    (hkept : ∀ d, (a.ivy.findClient d).isSome → (s'.findClient d).isSome)
    (hnode : data ≠ none → (s'.findClient c).isSome) :
    Inv { a.open c info data with ivy := s' } := by
  have hdata : ∀ d, (a.open c info data).data d = if d = c then data else a.data d :=
    fun d => Function.update_apply ..
  have hisOpen : ∀ d, (a.open c info data).isOpen d = if d = c then true else a.isOpen d :=
    fun d => Function.update_apply ..
  refine ⟨hwf, fun clnt hclnt => ?_, fun d hd hsome => ?_, fun act hact => ?_,
    fun d call hcall => ?_, fun happ d hwritable => ?_⟩
  · change (a.open c info data).isOpen _ = true ∧ (a.open c info data).data _ = _
    rw [hdata, hisOpen]
    rcases hclients clnt hclnt with hold | ⟨hc, hnew⟩
    · have hne : clnt.client ≠ c := by
        intro hc
        have hnode := (h.nodes clnt hold).1
        rw [hc, hopen] at hnode
        cases hnode
      rw [if_neg hne, if_neg hne]
      exact h.nodes clnt hold
    · rw [if_pos hc, if_pos hc]
      exact ⟨rfl, hnew⟩
  · change (a.open c info data).isOpen d = true at hd
    change (a.open c info data).data d ≠ none at hsome
    rw [hisOpen] at hd
    rw [hdata] at hsome
    split at hd
    · rename_i hc
      rw [if_pos hc] at hsome
      exact hc ▸ hnode hsome
    · rename_i hc
      rw [if_neg hc] at hsome
      exact hkept d (h.opened d hd hsome)
  · change act ∈ a.pending at hact
    rw [pending_eq_nil hbusy] at hact
    cases hact
  · change call ∈ callsOf (a.open c info data) d at hcall
    change Own (a.open c info data).data call
    by_cases hd : d = c
    · rw [hd, callsOf_open] at hcall
      cases hcall
    · rw [callsOf_open_of_ne hd] at hcall
      obtain ⟨app, happ, hold⟩ := h.calls d call hcall
      have hclient : call.client = d := of_decide_eq_true (List.mem_filter.mp hcall).2
      refine ⟨app, happ, ?_⟩
      rw [hdata, hclient, if_neg hd, ← hclient]
      exact hold
  · change (Function.update a.sock c Socket.Client.init d).writable = true at hwritable
    change (a.open c info data).data d ≠ none
    by_cases hd : d = c
    · rw [hd, Function.update_self] at hwritable
      cases hwritable
    · rw [Function.update_of_ne hd] at hwritable
      rw [hdata, if_neg hd]
      exact h.congested happ d hwritable

theorem Inv.refuse (h : Inv a) (hbusy : busy a = false) (hopen : a.isOpen c = false)
    (info : SocketInfo) : Inv (a.open c info none) :=
  h.open hbusy hopen info none ⟨h.wf.dict, h.wf.clients⟩ (fun _ hclnt => .inl hclnt)
    (fun _ hnode => hnode) (absurd rfl)

theorem Inv.greet (h : Inv a) (hbusy : busy a = false) (hopen : a.isOpen c = false)
    (info : SocketInfo) (appname : Str) : Inv (a.greet engine c info appname) := by
  have hnew : (a.open c info (some a.ivy.brk)).ivy.findClient c = none := h.findClient_none hopen
  have hwf : (a.open c info (some a.ivy.brk)).ivy.Wf := ⟨h.wf.dict, h.wf.clients⟩
  have hservice := sendService_eq engine hnew appname
  have hself : (a.open c info (some a.ivy.brk)).data c = some a.ivy.brk :=
    Function.update_self ..
  have hinv : Inv { a.open c info (some a.ivy.brk) with
      ivy := sendService engine (a.open c info (some a.ivy.brk)).ivy c appname } := by
    refine h.open hbusy hopen info _ (hwf.sendService engine hnew appname).1 (fun clnt hclnt => ?_)
      (fun d hd => ?_) fun _ => ?_
    · rw [hservice] at hclnt
      rcases List.mem_cons.mp hclnt with rfl | hold
      · exact .inr ⟨rfl, rfl⟩
      · exact .inl hold
    · rw [findClient_isSome] at hd ⊢
      rw [hservice]
      exact List.mem_cons_of_mem _ hd
    · rw [findClient_isSome, hservice]
      exact List.mem_cons_self
  refine ⟨hinv.wf, hinv.nodes, hinv.opened, fun act hact => ?_, hinv.calls, hinv.congested⟩
  obtain ⟨o, -, ho⟩ := List.mem_filterMap.mp hact
  refine good_actOf (fun clnt hclnt => (hinv.nodes clnt ?_).2) hself ho
  change clnt ∈ (sendService engine _ c appname).allClients
  rw [hservice]
  exact List.mem_cons_of_mem _ hclnt

theorem Inv.delete (h : Inv a) {ids : List Int32}
    (hown : a.hooks.application = true → a.data c ≠ none) (ha' : delete a c ids = some a') :
    Inv a' := by
  obtain ⟨s', hs', rfl⟩ := Option.map_eq_some_iff.mp ha'
  obtain ⟨t, ht, hdis⟩ := h.wf.delOneClientReading ids c
  obtain rfl := Option.some.inj (ht.symm.trans hs')
  have hcall : Inv (a.call ⟨c, a.data c, .application .disconnected⟩) := by
    refine h.call fun hwanted => ?_
    obtain ⟨app, hdata⟩ := Option.ne_none_iff_exists'.mp (hown hwanted)
    exact ⟨app, hdata, hdata⟩
  refine ⟨hdis.wf, fun clnt hclnt => ?_, fun d hopen hdata => ?_, h.pending, hcall.calls,
    h.congested⟩
  · obtain ⟨hne, old, hold, heq⟩ := hdis.heir hclnt
    have hclient : old.client = clnt.client := congrArg (fun clnt => clnt.client) heq
    have haddr : old.addr = clnt.addr := congrArg (fun clnt => clnt.addr) heq
    have hnode := h.nodes old hold
    rw [hclient, haddr] at hnode
    refine ⟨?_, hnode.2⟩
    change Function.update a.isOpen c false clnt.client = true
    rw [Function.update_of_ne hne]
    exact hnode.1
  · change Function.update a.isOpen c false d = true at hopen
    by_cases hd : d = c
    · rw [hd, Function.update_self] at hopen
      cases hopen
    · rw [Function.update_of_ne hd] at hopen
      exact hdis.findClient_isSome.mpr ⟨h.opened d hopen hdata, hd⟩

theorem Inv.decongest (h : Inv a) {answers : List SendResult}
    (hwritable : (a.sock c).writable = true) (ha' : decongest a c answers = some a') : Inv a' := by
  obtain ⟨out, -, rfl⟩ := Option.map_eq_some_iff.mp ha'
  have hsock := h.sock out.1 fun happ _ => h.congested happ c hwritable
  dsimp only
  split
  · refine hsock.call fun hwanted => ?_
    obtain ⟨app, hdata⟩ := Option.ne_none_iff_exists'.mp (h.congested hwanted c hwritable)
    exact ⟨app, hdata, hdata⟩
  · exact hsock

theorem Inv.announced (h : Inv a) {x : Option (Ivy Code)}
    (ha' : (if a.exited then some a else x.map a.announce) = some a')
    (hx : ∀ s', x = some s' → Handles.Announces a.ivy s') : Inv a' := by
  refine preserved_unless h ha' fun _ ha' => ?_
  obtain ⟨s', hs', rfl⟩ := Option.map_eq_some_iff.mp ha'
  exact h.announces (hx s' hs')

theorem Inv.next (h : Inv a) {e : Event} (hown : ownHand a e = true)
    (ha' : next engine a e = some a') : Inv a' := by
  cases e with
  | proceed r1 r2 =>
    rw [Pointers.next] at ha'
    split at ha'
    · exact Option.some.inj ha' ▸ h
    · rename_i act pending hpending
      have hrest : Inv { a with pending := pending } := by
        refine ⟨h.wf, h.nodes, h.opened, fun act' hact' => h.pending act' ?_, h.calls, h.congested⟩
        rw [hpending]
        exact List.mem_cons_of_mem _ hact'
      rw [← Option.some.inj ha']
      refine hrest.perform (h.pending act (hpending ▸ List.mem_cons_self)) fun happ => ?_
      have hact : a.pending.head?.all (undisturbed a r1 r2) = true := by
        simpa [ownHand, show a.hooks.application = true from happ] using hown
      rw [hpending] at hact
      cases act <;> exact hact
  | connect c info appname =>
    refine preserved_unless h ha' fun hfree ha' => ?_
    obtain ⟨hbusy, hopen⟩ := Bool.or_eq_false_iff.mp (Bool.not_eq_true _ ▸ hfree)
    exact Option.some.inj ha' ▸ h.greet hbusy hopen info appname
  | accept c info appname =>
    refine preserved_unless h ha' fun hfree ha' => ?_
    obtain ⟨hbusy, hopen⟩ := Bool.or_eq_false_iff.mp (Bool.not_eq_true _ ▸ hfree)
    split at ha'
    · exact Option.some.inj ha' ▸ h.refuse hbusy hopen info
    · exact Option.some.inj ha' ▸ h.greet hbusy hopen info appname
  | receive c line =>
    refine preserved_unless h ha' fun _ ha' => ?_
    cases hdata : a.data c with
    | none =>
      rw [hdata] at ha'
      exact Option.some.inj ha' ▸ h
    | some app =>
      rw [hdata] at ha'
      exact h.receive hdata ha'
  | delete c ids =>
    refine preserved_unless h ha' fun hfree ha' => ?_
    obtain ⟨hbusy, hopen⟩ := Bool.or_eq_false_iff.mp (Bool.not_eq_true _ ▸ hfree)
    refine h.delete (fun happ => ?_) ha'
    rw [ownHand, happ, hbusy, Bool.not_eq_eq_eq_not.mp hopen] at hown
    exact Option.isSome_iff_ne_none.mp hown
  | decongest c answers =>
    refine preserved_unless h ha' fun hfree ha' => ?_
    obtain ⟨-, hwritable⟩ := Bool.or_eq_false_iff.mp (Bool.not_eq_true _ ▸ hfree)
    exact h.decongest (Bool.not_eq_eq_eq_not.mp hwritable) ha'
  | ivySendMsg message =>
    refine preserved_unless h ha' fun _ ha' => ?_
    rw [← Option.some.inj ha']
    refine h.push (fun act hact => ?_) ..
    split at hact
    · cases hact
    · obtain ⟨msg, -, rfl⟩ := List.mem_map.mp hact
      trivial
  | bind regexp => exact h.announced ha' fun _ => Handles.announces_bind
  | unbind addr => exact h.announced ha' fun _ => Handles.announces_unbind
  | change addr regexp => exact h.announced ha' fun _ => Handles.announces_change
  | msgSendTo call msgtype id message =>
    rw [← Option.some.inj ha']
    cases hgiven : given a call with
    | none => exact h
    | some app =>
      refine @Inv.push Code a h [_] (fun act hact => ?_) ..
      rw [List.mem_singleton.mp hact]
      exact (h.data_given hgiven).2
  | ivySendPing call id =>
    rw [← Option.some.inj ha']
    split
    · exact h
    · cases hgiven : given a call with
      | none => exact h
      | some app =>
        refine @Inv.push Code a h [_] (fun act hact => ?_) ..
        rw [List.mem_singleton.mp hact]
        exact (h.data_given hgiven).2
  | set hooks =>
    rw [Pointers.next] at ha'
    split at ha'
    · rename_i happ
      rw [← Option.some.inj ha']
      exact ⟨h.wf, h.nodes, h.opened, h.pending, h.calls, fun hset => h.congested (happ ▸ hset)⟩
    · cases ha'

end Step

theorem inv_alone (s : Ivy Code) (hooks : Hooks) : Inv (alone s hooks) :=
  ⟨⟨⟨List.nodup_nil, nofun⟩, ⟨List.nodup_nil, nofun⟩⟩, nofun, nofun, nofun, fun _ => nofun,
    fun _ _ => nofun⟩

/-- In a run that never gets to the nodes of the dictionary or to a refused connection, all
callbacks get the node in `allClients`. -/
theorem one_handle (engine : Engine Code) {s : Ivy Code} {hooks : Hooks} {es : List Event}
    {a : Agent Code} (hown : Along (next engine) (ownHand · ·) (alone s hooks) es)
    (hrun : run (next engine) (alone s hooks) es = some a) : OneHandle a :=
  (run_invariant (fun _ _ _ h hown ha' => h.next hown ha') (inv_alone s hooks) hown hrun).oneHandle

def subscribed (r : SendResult) : List Event :=
  [.connect 1 ⟨1, 0, 0⟩ [], .proceed r r, .proceed r r,
    .receive 1 (header .addRegexp 5 ++ ascii "foo"), .proceed r r, .ivySendMsg (ascii "foo"),
    .proceed r r, .proceed r r]

def allHooks : Hooks := ⟨true, true, true, true, true, fun _ => true⟩

/-- The kernel takes all. -/
theorem one_handle_subscribed : ∃ a,
    run (next literal) (alone default allHooks) (subscribed (.room 100)) = some a ∧
      OneHandle a := by
  have hrun : (run (next literal) (alone default allHooks) (subscribed (.room 100))).isSome := by
    decide +kernel
  obtain ⟨a, ha⟩ := Option.isSome_iff_exists.mp hrun
  exact ⟨a, ha, one_handle literal (by decide +kernel) ha⟩

def blocked : Option (Agent Str) :=
  run (next literal) (alone default allHooks)
    ((subscribed (.room 100)).take 7 ++ [.proceed .wouldBlock .wouldBlock])

/-- The application is told of the node in the dictionary, and a ping through it does not reach the
one of the peer. -/
theorem two_handles : ∃ a, blocked = some a ∧
    callsOf a 1 = [⟨1, some 0, .bind .addBind⟩, ⟨1, some 1, .application .congestion⟩] ∧
    (a.ivy.findClient 1).map IvyClient.addr = some 0 ∧ ¬ OneHandle a ∧
    (next literal a (.ivySendPing ⟨1, some 1, .application .congestion⟩ 0)).map
      (fun a => (a.pinged 0, a.pinged 1)) = some (false, true) := by
  have hblocked : blocked.isSome := by decide +kernel
  obtain ⟨a, ha⟩ := Option.isSome_iff_exists.mp hblocked
  have hagent : ∀ {α : Type} (f : Agent Str → α) (x : α), blocked.map f = some x → f a = x := by
    intro α f x hx
    rw [ha] at hx
    exact Option.some.inj hx
  have hcalls := hagent (callsOf · 1)
    [⟨1, some 0, .bind .addBind⟩, ⟨1, some 1, .application .congestion⟩] (by decide +kernel)
  refine ⟨a, ha, hcalls, hagent (fun a => (a.ivy.findClient 1).map IvyClient.addr) _
    (by decide +kernel), fun h => ?_, hagent (fun a => (next literal a (.ivySendPing _ 0)).map
      fun a => (a.pinged 0, a.pinged 1)) _ (by decide +kernel)⟩
  have hdata := hagent (·.data 1) (some 0) (by decide +kernel)
  obtain ⟨app, happ, heq⟩ := h.calls 1 ⟨1, some 1, .application .congestion⟩ (by simp [hcalls])
  rw [hdata, ← happ] at heq
  cases heq

end IvyBus.Pointers
