import IvyBus.ClosingLaws
import IvyBus.Handles

namespace IvyBus.Immediate

open Lib Ivy Socket

variable {Code : Type}

/-- A function reaches a `Client`, or a node of `allClients`, that has been freed; or the result of
a step is not defined for another reason. -/
inductive Fault
  | handleSocket (client : Handle)
  | receive (client : Handle)
  | ivyCleanup (client : Handle)
  | undefined
  deriving DecidableEq

/-- An application under glib or Xt. `client` is the `struct _client` of a connection until it is
freed, and `loop` what `HandleSocket` has still to pass on. -/
structure Agent (Code : Type) where
  ivy : Ivy Code
  client : Handle → Option Receiver
  loop : Option (Handle × List Str)
  exited : Bool

/-- `IvyChannelRemove` calls `DeleteSocket` at once: `ClientDelete`, with the ids that its walk
reads, and then the client is freed. -/
def socketClose (a : Agent Code) (c : Handle) (ids : List Int32) : Except Fault (Agent Code) :=
  match a.client c, delOneClientReading ids a.ivy c with
  | some _, some s => .ok { a with ivy := s, client := Function.update a.client c none }
  | _, _ => .error .undefined

/-- After `SocketClose` the flag of the target is set. -/
def receiveStartRegexp (a : Agent Code) (clnt : IvyClient) (arg : Str) (ids : List Int32) :
    Except Fault (Agent Code) :=
  let s := a.ivy.setName clnt.client arg
  match s.checkConnected clnt.client with
  | none => .ok { a with ivy := s }
  | some other =>
    let target := s.duplicateTarget other.client clnt.client
    let s := s.msgSendTo target .error 0 (ascii "Application already connected")
    (socketClose { a with ivy := s } target ids).bind fun a =>
      match a.ivy.findClient target with
      | none => .error (.receive target)
      | some _ =>
        let s := a.ivy.modifyClient target fun clnt => { clnt with ignoreSubsequentMsg := true }
        .ok { a with ivy := s }

/-- The first node of `allClients` is read after its connection has been closed. -/
def ivyCleanup (a : Agent Code) (ids : List Int32) : Except Fault (Agent Code) :=
  match a.ivy.allClients with
  | [] => .ok { a with exited := true }
  | clnt :: _ =>
    (socketClose { a with ivy := a.ivy.msgSendTo clnt.client .bye 0 [] } clnt.client ids).bind
      fun _ => .error (.ivyCleanup clnt.client)

/-- The branches of `Receive` that close no connection. -/
def receiveOpen (engine : Engine Code) (a : Agent Code) (c : Handle) (line : Str) :
    Except Fault (Agent Code) :=
  match Ivy.receive engine a.ivy c line with
  | some s => .ok { a with ivy := s }
  | none => .error .undefined

def receiveMsg (a : Agent Code) (h : Header) : Except Fault (Agent Code) :=
  match a.ivy.msgRecv.find? (·.id = h.id), argv h.arg with
  | some _, none => .error .undefined
  | _, _ => .ok a

def receive (engine : Engine Code) (a : Agent Code) (c : Handle) (line : Str) (ids : List Int32) :
    Except Fault (Agent Code) :=
  match a.ivy.findClient c with
  | none => .error (.receive c)
  | some clnt =>
    if clnt.ignoreSubsequentMsg then .ok a
    else
      match parseHeader line with
      | none =>
        let s := (a.ivy.msgSendTo c .error 3 badFormat).msgSendTo c .bye 0 []
        socketClose { a with ivy := s } c ids
      | some h =>
        let named := { a with ivy := a.ivy.setId c h.id }
        match MsgType.ofInt32 h.kindOfMsg with
        | some .bye => socketClose named c ids
        | some .startRegexp => receiveStartRegexp named { clnt with id := h.id } h.arg ids
        | some .msg => receiveMsg named h
        | some .die => ivyCleanup named ids
        | _ => receiveOpen engine a c line

/-- The next line is passed on, and then the condition of the loop of `HandleSocket` reads the
client again. -/
def dispatch (engine : Engine Code) (a : Agent Code) (ids : List Int32) :
    Except Fault (Agent Code) :=
  match a.loop with
  | some (c, line :: rest) =>
    (receive engine { a with loop := some (c, rest) } c line ids).bind fun a =>
      if !a.exited && (a.client c).isNone then .error (.handleSocket c) else .ok a
  | some (c, []) =>
    if (a.client c).isNone then .error (.handleSocket c) else .ok { a with loop := none }
  | none => .ok a

/-- The lists `ids` are what the walks of `ClientDelete` read, if there is one. -/
inductive Event
  | read (c : Handle) (r : RecvResult) (ids : List Int32)
  | dispatch (ids : List Int32)
  | connect (c : Handle) (info : SocketInfo) (appname : Str)
  | accept (c : Handle) (info : SocketInfo) (appname : Str)
  | bind (regexp : Str)
  | unbind (addr : Nat)

def Agent.open (a : Agent Code) (c : Handle) (info : SocketInfo) : Agent Code :=
  { a with
    ivy := { a.ivy with sockets := Function.update a.ivy.sockets c info }
    client := Function.update a.client c (some Receiver.init) }

def isOpen (a : Agent Code) (c : Handle) : Bool :=
  (a.client c).isSome || (a.ivy.findClient c).isSome

/-- `HandleSocket` up to its loop; it returns right after the `IvyChannelRemove` of a failing
read. -/
def handleSocket (a : Agent Code) (c : Handle) (client : Receiver) (r : RecvResult)
    (ids : List Int32) : Except Fault (Agent Code) :=
  let out := Socket.handleSocket client r
  if out.removed then socketClose a c ids
  else .ok { a with
    client := Function.update a.client c (some out.client)
    loop := some (c, out.lines) }

/-- A connection that `ClientCreate` closes is freed in the middle of `HandleServer`, which goes on
with it. -/
def next (engine : Engine Code) (a : Agent Code) (e : Event) : Except Fault (Agent Code) :=
  if a.exited then .ok a
  else
    match e with
    | .read c r ids =>
      match a.loop, a.client c with
      | none, some client => if Closing.fits client r then handleSocket a c client r ids else .ok a
      | _, _ => .ok a
    | .dispatch ids => dispatch engine a ids
    | .connect c info appname =>
      if a.loop.isSome || isOpen a c then .ok a
      else
        let a := a.open c info
        .ok { a with ivy := sendService engine a.ivy c appname }
    | .accept c info appname =>
      if a.loop.isSome || isOpen a c then .ok a
      else
        let a := a.open c info
        if (a.ivy.checkConnected c).isSome then .error .undefined
        else .ok { a with ivy := clientCreate engine a.ivy c appname }
    | .bind regexp =>
      match ivyBindMsg a.ivy regexp with
      | some s => .ok { a with ivy := s }
      | none => .error .undefined
    | .unbind addr =>
      match ivyUnbindMsg a.ivy addr with
      | some s => .ok { a with ivy := s }
      | none => .error .undefined

def step (engine : Engine Code) (a : Agent Code) (e : Event) : Option (Agent Code) :=
  (next engine a e).toOption

def alone (s : Ivy Code) : Agent Code where
  ivy := { s with allClients := [], messSndByRegexp := [] }
  client := fun _ => none
  loop := none
  exited := false

/-- `HandleSocket` and `Receive` do not reach anything that has been freed. -/
def Survives (engine : Engine Code) (a : Agent Code) (e : Event) : Prop :=
  ∀ c, next engine a e ≠ .error (.handleSocket c) ∧ next engine a e ≠ .error (.receive c)

/-- The connection that `Receive` closes because of the line. -/
def closes (s : Ivy Code) (c : Handle) (line : Str) : Option Handle :=
  match s.findClient c with
  | none => none
  | some clnt =>
    if clnt.ignoreSubsequentMsg then none
    else
      match parseHeader line with
      | none => some c
      | some h =>
        match MsgType.ofInt32 h.kindOfMsg with
        | some .bye => some c
        | some .startRegexp =>
          let s := (s.setId c h.id).setName c h.arg
          (s.checkConnected c).map fun other => s.duplicateTarget other.client c
        | _ => none

/-- The line that comes next closes no connection. -/
def KeepsOpen (a : Agent Code) : Event → Prop
  | .dispatch _ => a.exited = false → ∀ c line rest, a.loop = some (c, line :: rest) →
      closes a.ivy c line = none
  | _ => True

structure Linked (a : Agent Code) : Prop where
  wf : a.ivy.Wf
  nodes : ∀ c, (a.ivy.findClient c).isSome ↔ (a.client c).isSome

structure Inv (a : Agent Code) : Prop where
  linked : Linked a
  loop : ∀ c lines, a.loop = some (c, lines) → (a.client c).isSome

def Quiet (a : Agent Code) : Except Fault (Agent Code) → Prop
  | .ok a' => Linked a' ∧ a'.client = a.client ∧ a'.loop = a.loop
  | .error (.handleSocket _) => False
  | .error (.receive _) => False
  | .error _ => True

section Receive

variable {engine : Engine Code} {a a' : Agent Code} {s' : Ivy Code} {c d : Handle} {line : Str}

theorem Linked.of_handles (h : Linked a) (hwf : s'.Wf)
    (hhandles : s'.allClients.map IvyClient.client = a.ivy.allClients.map IvyClient.client) :
    Linked { a with ivy := s' } := by
  refine ⟨hwf, fun c => Iff.trans ?_ (h.nodes c)⟩
  rw [findClient_isSome, findClient_isSome, hhandles]

theorem Linked.socketClose (h : Linked a) (hc : (a.client c).isSome) (ids : List Int32) :
    ∃ s', socketClose a c ids =
        .ok { a with ivy := s', client := Function.update a.client c none } ∧
      s'.findClient c = none ∧
      Linked { a with ivy := s', client := Function.update a.client c none } := by
  obtain ⟨client, hclient⟩ := Option.isSome_iff_exists.mp hc
  obtain ⟨s', hs', hdis⟩ := h.wf.delOneClientReading ids c
  refine ⟨s', ?_, ?_, hdis.wf, fun d => ?_⟩
  · rw [Immediate.socketClose, hclient, hs']
  · rw [← Option.not_isSome_iff_eq_none, hdis.findClient_isSome]
    exact fun hboth => hboth.2 rfl
  · change (s'.findClient d).isSome ↔ (Function.update a.client c none d).isSome
    rw [hdis.findClient_isSome, h.nodes]
    by_cases heq : d = c
    · rw [heq, Function.update_self]
      exact iff_of_false (fun hboth => hboth.2 rfl) Bool.false_ne_true
    · rw [Function.update_of_ne heq]
      exact and_iff_left heq

theorem Linked.setId (h : Linked a) (c : Handle) (i : Int32) :
    Linked { a with ivy := a.ivy.setId c i } :=
  h.of_handles (h.wf.setId c i).wf (map_modifyClient fun _ => rfl)

theorem Linked.setName (h : Linked a) (c : Handle) (arg : Str) :
    Linked { a with ivy := a.ivy.setName c arg } :=
  h.of_handles (h.wf.setName c arg) (map_modifyClient fun _ => rfl)

theorem Linked.msgSendTo (h : Linked a) (c : Handle) (msgtype : MsgType) (id : Int32)
    (message : Str) : Linked { a with ivy := a.ivy.msgSendTo c msgtype id message } :=
  h.of_handles (h.wf.emit _) rfl

theorem checkConnected_mem {s : Ivy Code} {other : IvyClient}
    (h : s.checkConnected c = some other) : (s.findClient other.client).isSome := by
  rw [checkConnected] at h
  split at h
  · cases h
  · rw [findClient_isSome]
    exact List.mem_map_of_mem (List.mem_of_find?_eq_some h)

/-- `Receive` sets the flag of a node that it has freed. -/
theorem receiveStartRegexp_closes (h : Linked a) {clnt : IvyClient}
    (hclnt : (a.client clnt.client).isSome) {arg : Str} {other : IvyClient}
    (hother : (a.ivy.setName clnt.client arg).checkConnected clnt.client = some other)
    (ids : List Int32) :
    receiveStartRegexp a clnt arg ids = .error
      (.receive ((a.ivy.setName clnt.client arg).duplicateTarget other.client clnt.client)) := by
  have hnamed := h.setName clnt.client arg
  rw [receiveStartRegexp]
  dsimp only
  rw [hother]
  dsimp only
  generalize htarget : (a.ivy.setName clnt.client arg).duplicateTarget other.client clnt.client =
    target
  have hlive : (a.client target).isSome := by
    rw [← htarget, duplicateTarget]
    split
    · exact (hnamed.nodes _).mp (checkConnected_mem hother)
    · exact hclnt
  obtain ⟨s', hs', hgone, -⟩ := (hnamed.msgSendTo target .error 0
    (ascii "Application already connected")).socketClose hlive ids
  dsimp only at hs'
  rw [hs']
  change (match s'.findClient target with | none => _ | some _ => _) = _
  rw [hgone]

theorem receive_closes (engine : Engine Code) (h : Linked a)
    (hcloses : closes a.ivy c line = some d)
    (ids : List Int32) : receive engine a c line ids = .error (.receive d) ∨
      ∃ a', receive engine a c line ids = .ok a' ∧ d = c ∧ a'.client c = none ∧
        a'.exited = a.exited := by
  have hown {s : Ivy Code} (hs : Linked { a with ivy := s }) (hc : (a.client c).isSome) :
      ∃ a', socketClose { a with ivy := s } c ids = .ok a' ∧ a'.client c = none ∧
        a'.exited = a.exited := by
    obtain ⟨s', hs', -, -⟩ := hs.socketClose hc ids
    exact ⟨_, hs', Function.update_self .., rfl⟩
  rw [closes] at hcloses
  rw [receive]
  cases hfind : a.ivy.findClient c with
  | none => rw [hfind] at hcloses; cases hcloses
  | some clnt =>
    have hclient : clnt.client = c := client_of_findClient hfind
    have hc : (a.client c).isSome := (h.nodes c).mp (Option.isSome_of_eq_some hfind)
    rw [hfind] at hcloses
    dsimp only at hcloses ⊢
    cases hopen : clnt.ignoreSubsequentMsg with
    | true => rw [hopen] at hcloses; cases hcloses
    | false =>
      rw [hopen] at hcloses
      rw [if_neg Bool.false_ne_true] at hcloses ⊢
      cases hparse : parseHeader line with
      | none =>
        rw [hparse] at hcloses
        obtain ⟨a', ha', hfreed⟩ :=
          hown ((h.msgSendTo c .error 3 badFormat).msgSendTo c .bye 0 []) hc
        exact .inr ⟨a', ha', (Option.some.inj hcloses).symm, hfreed⟩
      | some hd =>
        rw [hparse] at hcloses
        dsimp only at hcloses ⊢
        have hid := h.setId c hd.id
        cases hkind : MsgType.ofInt32 hd.kindOfMsg with
        | none => rw [hkind] at hcloses; cases hcloses
        | some kind =>
          rw [hkind] at hcloses
          cases kind with
          | bye =>
            obtain ⟨a', ha', hfreed⟩ := hown hid hc
            exact .inr ⟨a', ha', (Option.some.inj hcloses).symm, hfreed⟩
          | startRegexp =>
            obtain ⟨other, hother, rfl⟩ := Option.map_eq_some_iff.mp hcloses
            subst hclient
            exact .inl (@receiveStartRegexp_closes Code _ hid { clnt with id := hd.id } hc hd.arg
              other hother ids)
          | addRegexp => cases hcloses
          | delRegexp => cases hcloses
          | endRegexp => cases hcloses
          | msg => cases hcloses
          | error => cases hcloses
          | directMsg => cases hcloses
          | die => cases hcloses
          | ping => cases hcloses
          | pong => cases hcloses

theorem quiet_receiveOpen (engine : Engine Code) (h : Linked a) (c : Handle) (line : Str) :
    Quiet a (receiveOpen engine a c line) := by
  rw [receiveOpen]
  split
  next s' hs' => exact ⟨h.of_handles (h.wf.of_receive hs').1 (handles_receive h.wf hs'), rfl, rfl⟩
  next => trivial

theorem quiet_receiveMsg (hquiet : Quiet a (.ok a')) (hd : Header) :
    Quiet a (receiveMsg a' hd) := by
  rw [receiveMsg]
  split
  · trivial
  · exact hquiet

theorem quiet_ivyCleanup (hquiet : Quiet a (.ok a')) (ids : List Int32) :
    Quiet a (ivyCleanup a' ids) := by
  rw [ivyCleanup]
  split
  · exact ⟨⟨hquiet.1.wf, hquiet.1.nodes⟩, hquiet.2⟩
  · rw [socketClose]
    split <;> trivial

theorem receive_quiet (engine : Engine Code) (h : Linked a) (hc : (a.client c).isSome)
    (hcloses : closes a.ivy c line = none) (ids : List Int32) :
    Quiet a (receive engine a c line ids) := by
  obtain ⟨clnt, hfind⟩ := Option.isSome_iff_exists.mp ((h.nodes c).mpr hc)
  have hclient : clnt.client = c := client_of_findClient hfind
  rw [closes, hfind] at hcloses
  rw [receive, hfind]
  dsimp only at hcloses ⊢
  cases hopen : clnt.ignoreSubsequentMsg with
  | true => exact ⟨h, rfl, rfl⟩
  | false =>
    rw [hopen] at hcloses
    rw [if_neg Bool.false_ne_true] at hcloses ⊢
    cases hparse : parseHeader line with
    | none => rw [hparse] at hcloses; cases hcloses
    | some hd =>
      rw [hparse] at hcloses
      dsimp only at hcloses ⊢
      have hid : Quiet a (.ok { a with ivy := a.ivy.setId c hd.id }) :=
        ⟨h.setId c hd.id, rfl, rfl⟩
      cases hkind : MsgType.ofInt32 hd.kindOfMsg with
      | none => exact quiet_receiveOpen engine h c line
      | some kind =>
        rw [hkind] at hcloses
        cases kind with
        | bye => cases hcloses
        | startRegexp =>
          have hnone := Option.map_eq_none_iff.mp hcloses
          dsimp only
          rw [receiveStartRegexp]
          dsimp only
          rw [hclient, hnone]
          exact ⟨hid.1.setName c hd.arg, rfl, rfl⟩
        | msg => exact quiet_receiveMsg hid hd
        | die => exact quiet_ivyCleanup hid ids
        | addRegexp => exact quiet_receiveOpen engine h c line
        | delRegexp => exact quiet_receiveOpen engine h c line
        | endRegexp => exact quiet_receiveOpen engine h c line
        | error => exact quiet_receiveOpen engine h c line
        | directMsg => exact quiet_receiveOpen engine h c line
        | ping => exact quiet_receiveOpen engine h c line
        | pong => exact quiet_receiveOpen engine h c line

end Receive

section Steps

variable {engine : Engine Code} {a a' : Agent Code} {s' : Ivy Code} {c : Handle}

theorem dispatch_quiet (engine : Engine Code) (h : Inv a) {line : Str} {rest : List Str}
    (hloop : a.loop = some (c, line :: rest)) (hcloses : closes a.ivy c line = none)
    (ids : List Int32) :
    (∀ d, dispatch engine a ids ≠ .error (.handleSocket d) ∧
      dispatch engine a ids ≠ .error (.receive d)) ∧
    ∀ a', dispatch engine a ids = .ok a' → Inv a' := by
  have hc : (a.client c).isSome := h.loop c _ hloop
  have hpopped : Linked { a with loop := some (c, rest) } := ⟨h.linked.wf, h.linked.nodes⟩
  have hquiet := receive_quiet engine hpopped hc hcloses ids
  have hdispatch : dispatch engine a ids =
      (receive engine { a with loop := some (c, rest) } c line ids).bind fun a =>
        if !a.exited && (a.client c).isNone then .error (.handleSocket c) else .ok a := by
    rw [dispatch, hloop]
  rw [hdispatch]
  cases hreceive : receive engine { a with loop := some (c, rest) } c line ids with
  | error fault =>
    rw [hreceive] at hquiet
    refine ⟨fun d => ⟨?_, ?_⟩, nofun⟩
    · rintro heq
      cases heq
      exact hquiet
    · rintro heq
      cases heq
      exact hquiet
  | ok b =>
    rw [hreceive] at hquiet
    obtain ⟨hlinked, hclient, hb⟩ := hquiet
    have hlive : (b.client c).isNone = false := by
      rw [hclient]
      simpa using hc
    have hok : (Except.ok b : Except Fault (Agent Code)).bind (fun a =>
        if !a.exited && (a.client c).isNone then .error (.handleSocket c) else .ok a) = .ok b := by
      change (if !b.exited && (b.client c).isNone then _ else _) = _
      rw [hlive, Bool.and_false]
      rfl
    rw [hok]
    refine ⟨fun d => ⟨nofun, nofun⟩, fun a' ha' => ?_⟩
    cases ha'
    refine ⟨hlinked, fun d lines hd => ?_⟩
    obtain ⟨rfl, -⟩ := Prod.mk.inj (Option.some.inj (hb.symm.trans hd))
    rw [hclient]
    exact hc

/-- After a line that closes a connection, `Receive` or the loop of `HandleSocket` reaches what has
been freed. -/
theorem dispatch_closes (engine : Engine Code) (h : Inv a) (hexit : a.exited = false) {d : Handle}
    {line : Str} {rest : List Str} (hloop : a.loop = some (c, line :: rest))
    (hcloses : closes a.ivy c line = some d) (ids : List Int32) :
    dispatch engine a ids = .error (.receive d) ∨
      d = c ∧ dispatch engine a ids = .error (.handleSocket d) := by
  have hpopped : Linked { a with loop := some (c, rest) } := ⟨h.linked.wf, h.linked.nodes⟩
  have hdispatch : dispatch engine a ids =
      (receive engine { a with loop := some (c, rest) } c line ids).bind fun a =>
        if !a.exited && (a.client c).isNone then .error (.handleSocket c) else .ok a := by
    rw [dispatch, hloop]
  rw [hdispatch]
  obtain herror | ⟨b, hb, rfl, hfreed, hrunning⟩ := receive_closes engine hpopped hcloses ids
  · rw [herror]
    exact .inl rfl
  · rw [hb]
    refine .inr ⟨rfl, ?_⟩
    change (if !b.exited && (b.client d).isNone then _ else _) = _
    rw [hfreed, hrunning.trans hexit]
    rfl

theorem Inv.dispatch (h : Inv a) {ids : List Int32} (hkeeps : KeepsOpen a (.dispatch ids))
    (hexit : a.exited = false) :
    (∀ d, dispatch engine a ids ≠ .error (.handleSocket d) ∧
      dispatch engine a ids ≠ .error (.receive d)) ∧
    ∀ a', dispatch engine a ids = .ok a' → Inv a' := by
  cases hloop : a.loop with
  | none =>
    rw [Immediate.dispatch, hloop]
    exact ⟨fun d => ⟨nofun, nofun⟩, fun a' ha' => by cases ha'; exact h⟩
  | some reading =>
    obtain ⟨c, lines⟩ := reading
    cases lines with
    | nil =>
      have hlive : (a.client c).isNone = false := by simpa using h.loop c _ hloop
      rw [Immediate.dispatch, hloop]
      dsimp only
      rw [hlive, if_neg Bool.false_ne_true]
      refine ⟨fun d => ⟨nofun, nofun⟩, fun a' ha' => ?_⟩
      cases ha'
      exact ⟨⟨h.linked.wf, h.linked.nodes⟩, nofun⟩
    | cons line rest => exact dispatch_quiet engine h hloop (hkeeps hexit c line rest hloop) ids

theorem Inv.handleSocket (h : Inv a) {client : Receiver} (hclient : a.client c = some client)
    (hloop : a.loop = none) (r : RecvResult) (ids : List Int32) :
    ∃ a', handleSocket a c client r ids = .ok a' ∧ Inv a' := by
  have hc : (a.client c).isSome := Option.isSome_of_eq_some hclient
  rw [Immediate.handleSocket]
  split
  next =>
    obtain ⟨s', hs', -, hlinked⟩ := h.linked.socketClose hc ids
    refine ⟨_, hs', hlinked, fun d lines hd => ?_⟩
    cases hloop.symm.trans hd
  next =>
    refine ⟨_, rfl, ⟨h.linked.wf, fun d => ?_⟩, fun d lines hd => ?_⟩
    · change (a.ivy.findClient d).isSome ↔ (Function.update a.client c (some _) d).isSome
      by_cases heq : d = c
      · rw [heq, Function.update_self]
        exact iff_of_true ((h.linked.nodes c).mpr hc) rfl
      · rw [Function.update_of_ne heq]
        exact h.linked.nodes d
    · obtain ⟨rfl, -⟩ := Prod.mk.inj (Option.some.inj hd)
      change (Function.update a.client c (some _) c).isSome
      rw [Function.update_self]
      rfl

theorem Inv.open (h : Inv a) (hidle : (a.loop.isSome || isOpen a c) = false) (info : SocketInfo)
    (appname : Str) :
    Inv { a.open c info with ivy := sendService engine (a.open c info).ivy c appname } := by
  obtain ⟨hloop, hopen⟩ := Bool.or_eq_false_iff.mp hidle
  have hclosed : a.ivy.findClient c = none := by
    simpa using (Bool.or_eq_false_iff.mp hopen).2
  have hnew : (a.open c info).ivy.findClient c = none := hclosed
  have hwf : (a.open c info).ivy.Wf := ⟨h.linked.wf.dict, h.linked.wf.clients⟩
  refine ⟨⟨(hwf.sendService engine hnew appname).1, fun d => ?_⟩, fun d lines hd => ?_⟩
  · change ((sendService engine (a.open c info).ivy c appname).findClient d).isSome ↔
      (Function.update a.client c (some _) d).isSome
    rw [findClient_isSome, sendService_eq engine hnew]
    change d ∈ c :: a.ivy.allClients.map IvyClient.client ↔ _
    rw [List.mem_cons, ← findClient_isSome, h.linked.nodes]
    by_cases heq : d = c
    · rw [heq, Function.update_self]
      exact iff_of_true (.inl rfl) rfl
    · rw [Function.update_of_ne heq]
      exact or_iff_right heq
  · have hnone : a.loop = some (d, lines) := hd
    rw [hnone] at hloop
    cases hloop

theorem Inv.of_handles (h : Inv a) (hwf : s'.Wf)
    (hhandles : s'.allClients.map IvyClient.client = a.ivy.allClients.map IvyClient.client) :
    Inv { a with ivy := s' } :=
  ⟨h.linked.of_handles hwf hhandles, h.loop⟩

theorem Inv.announces (h : Inv a) (hs' : Handles.Announces a.ivy s') : Inv { a with ivy := s' } :=
  h.of_handles (hs'.wf h.linked.wf) (by rw [hs'.clients_eq])

theorem Inv.next (h : Inv a) {e : Event} (hkeeps : KeepsOpen a e) :
    Survives engine a e ∧ ∀ a', next engine a e = .ok a' → Inv a' := by
  have hok {r : Except Fault (Agent Code)} {b : Agent Code} (hr : r = .ok b) (hb : Inv b) :
      (∀ c, r ≠ .error (.handleSocket c) ∧ r ≠ .error (.receive c)) ∧
        ∀ a', r = .ok a' → Inv a' := by
    rw [hr]
    exact ⟨fun c => ⟨nofun, nofun⟩, fun a' ha' => by cases ha'; exact hb⟩
  have hundefined {r : Except Fault (Agent Code)} (hr : r = .error .undefined) :
      (∀ c, r ≠ .error (.handleSocket c) ∧ r ≠ .error (.receive c)) ∧
        ∀ a', r = .ok a' → Inv a' := by
    rw [hr]
    exact ⟨fun c => ⟨nofun, nofun⟩, nofun⟩
  unfold Survives
  generalize hnext : Immediate.next engine a e = r
  rw [Immediate.next.eq_def] at hnext
  split at hnext
  next => exact hok hnext.symm h
  next hexit =>
    rw [Bool.not_eq_true] at hexit
    cases e with
    | read c r ids =>
      dsimp only at hnext
      split at hnext
      next client hloop hclient =>
        split at hnext
        · obtain ⟨b, hb, hinv⟩ := h.handleSocket hclient hloop r ids
          exact hok (hnext.symm.trans hb) hinv
        · exact hok hnext.symm h
      next => exact hok hnext.symm h
    | dispatch ids => exact hnext ▸ h.dispatch hkeeps hexit
    | connect c info appname =>
      dsimp only at hnext
      split at hnext
      next => exact hok hnext.symm h
      next hidle => exact hok hnext.symm (h.open (Bool.not_eq_true _ ▸ hidle) info appname)
    | accept c info appname =>
      dsimp only at hnext
      split at hnext
      next => exact hok hnext.symm h
      next hidle =>
        split at hnext
        next => exact hundefined hnext.symm
        next hrefused =>
          have hnone : (a.open c info).ivy.checkConnected c = none := by simpa using hrefused
          rw [clientCreate, hnone] at hnext
          exact hok hnext.symm (h.open (Bool.not_eq_true _ ▸ hidle) info appname)
    | bind regexp =>
      dsimp only at hnext
      split at hnext
      next s' hs' => exact hok hnext.symm (h.announces (Handles.announces_bind hs'))
      next => exact hundefined hnext.symm
    | unbind addr =>
      dsimp only at hnext
      split at hnext
      next s' hs' => exact hok hnext.symm (h.announces (Handles.announces_unbind hs'))
      next => exact hundefined hnext.symm

theorem Inv.survives_step_iff (h : Inv a) (engine : Engine Code) (e : Event) :
    Survives engine a e ↔ KeepsOpen a e := by
  refine ⟨fun hsurvives => ?_, fun hkeeps => (h.next hkeeps).1⟩
  cases e with
  | dispatch ids =>
    intro hexit c line rest hloop
    cases hcloses : closes a.ivy c line with
    | none => rfl
    | some d =>
      have hnext : Immediate.next engine a (.dispatch ids) = Immediate.dispatch engine a ids := by
        rw [Immediate.next, hexit]
        rfl
      obtain hreceive | ⟨-, hloop'⟩ := dispatch_closes engine h hexit hloop hcloses ids
      · exact absurd (hnext.trans hreceive) (hsurvives d).2
      · exact absurd (hnext.trans hloop') (hsurvives d).1
  | read c r ids => trivial
  | connect c info appname => trivial
  | accept c info appname => trivial
  | bind regexp => trivial
  | unbind addr => trivial

end Steps

theorem inv_alone (s : Ivy Code) : Inv (alone s) :=
  ⟨⟨⟨⟨List.nodup_nil, nofun⟩, ⟨List.nodup_nil, nofun⟩⟩, fun _ => Iff.rfl⟩, nofun⟩

/-- Under the loops that delete at once, `HandleSocket` and `Receive` reach nothing that has been
freed in the steps of a run exactly when no line of it closes a connection. -/
theorem survives_iff (engine : Engine Code) (s : Ivy Code) (es : List Event) :
    Along (step engine) (Survives engine) (alone s) es ↔
      Along (step engine) KeepsOpen (alone s) es := by
  refine along_iff (I := Inv) (fun a e h => h.survives_step_iff engine e)
    (fun a e a' h hkeeps ha' => ?_) (inv_alone s) es
  refine (@Inv.next Code engine a h e hkeeps).2 a' ?_
  cases hnext : next engine a e with
  | ok b =>
    rw [step, hnext] at ha'
    rw [Option.some.inj ha']
  | error fault =>
    rw [step, hnext] at ha'
    cases ha'

/-- After `Bye` the loop of `HandleSocket` reads the client that has been freed. -/
theorem bye_not_survived : ∃ a,
    run (step literal) (alone default) [.connect 1 ⟨1, 0, 0⟩ [],
      .read 1 (.bytes (header .bye 0 ++ [lf])) []] = some a ∧
    next literal a (.dispatch []) = .error (.handleSocket 1) :=
  ⟨_, rfl, rfl⟩

end IvyBus.Immediate
