import IvyBus.Raises

namespace IvyBus.Ready

open Lib Ivy
open Pairing (Mild Mutters)

variable {Code : Type}

/-- An agent and, for each connection, the lines of the peer on their way, those read since the
connection was set up, and the length that `outputs` had then. -/
structure Agent (Code : Type) where
  ivy : Ivy Code
  flight : Handle → List Str
  read : Handle → List Str
  start : Handle → Nat

def Agent.setUp (a : Agent Code) (c : Handle) (info : SocketInfo) : Agent Code :=
  { a with
    ivy := { a.ivy with sockets := Function.update a.ivy.sockets c info }
    read := Function.update a.read c []
    start := Function.update a.start c a.ivy.outputs.length }

def Agent.put (a : Agent Code) (s : Ivy Code) : Agent Code := { a with ivy := s }

def Agent.hear (a : Agent Code) (c : Handle) (line : Str) (rest : List Str) (s : Ivy Code) :
    Agent Code :=
  { a with
    ivy := s
    flight := Function.update a.flight c rest
    read := Function.update a.read c (a.read c ++ [line]) }

/-- `say` is the peer sending a line, whatever it is, and `deliver` the agent reading the next
one. -/
inductive Event
  | connect (c : Handle) (info : SocketInfo) (appname : Str)
  | accept (c : Handle) (info : SocketInfo) (appname : Str)
  | say (c : Handle) (line : Str)
  | deliver (c : Handle)
  | bind (regexp : Str)
  | unbind (addr : Nat)
  | drop (c : Handle)

def deliver (engine : Engine Code) (a : Agent Code) (c : Handle) : Option (Agent Code) :=
  match a.flight c, a.ivy.findClient c with
  | line :: rest, some _ => (receive engine a.ivy c line).map (a.hear c line rest)
  | _, _ => some a

def next (engine : Engine Code) (a : Agent Code) : Event → Option (Agent Code)
  | .connect c info appname =>
    if (a.ivy.findClient c).isSome then some a
    else
      let a := a.setUp c info
      some (a.put (sendService engine a.ivy c appname))
  | .accept c info appname =>
    if (a.ivy.findClient c).isSome then some a
    else
      let a := a.setUp c info
      some (a.put (clientCreate engine a.ivy c appname))
  | .say c line =>
    some { a with flight := Function.update a.flight c (a.flight c ++ [line]) }
  | .deliver c => deliver engine a c
  | .bind regexp => (ivyBindMsg a.ivy regexp).map a.put
  | .unbind addr => (ivyUnbindMsg a.ivy addr).map a.put
  | .drop c => (a.ivy.delOneClient c).map fun s =>
      { a with ivy := s, flight := Function.update a.flight c [] }

def alone (s : Ivy Code) : Agent Code :=
  { ivy := { s with allClients := [], messSndByRegexp := [] }
    flight := fun _ => []
    read := fun _ => []
    start := fun _ => 0 }

def isEnd (line : Str) : Bool := kindOf line = some .endRegexp

def lineNote (line : Str) : Note Int32 Str :=
  match parseHeader line with
  | none => .skip
  | some h =>
    match MsgType.ofInt32 h.kindOfMsg with
    | some .addRegexp => .put h.id h.arg
    | some .delRegexp => .drop h.id
    | _ => .skip

def announced (lines : List Str) : List (Int32 × Str) := replay [] (lines.map lineNote)

def since (a : Agent Code) (c : Handle) : List Output := a.ivy.outputs.drop (a.start c)

def msgsTo (c : Handle) (os : List Output) : List Output :=
  os.filter fun
    | .send client text => client = c && kindOf text = some .msg
    | _ => false

structure Greeted (a : Agent Code) (c : Handle) : Prop where
  started : .send c (msgText .startRegexp (Int32.ofNat a.ivy.applicationPort.toNat)
    a.ivy.applicationName) ∈ since a c
  bindings : ∀ msg ∈ a.ivy.msgRecv,
    .send c (msgText .addRegexp msg.id msg.regexp) ∈ since a c
  ended : .send c (msgText .endRegexp 0 []) ∈ since a c

/-- When `ClientCall` is called, the agent has sent all its greeting, and what the peer has
announced so far is in the dictionary; the ready message comes last. -/
structure InTime (engine : Engine Code) (message : Str) (a : Agent Code) (c : Handle)
    (line : Str) : Prop where
  greeted : Greeted a c
  applied : ∀ p ∈ announced (a.read c), (c, p.1) ∈ a.ivy.listed p.2
  called : ∃ s : Ivy Code, s.outputs = a.ivy.outputs ++ [.connected c] ∧
    s.messSndByRegexp = a.ivy.messSndByRegexp ∧
    receive engine a.ivy c line = some (clientCall engine s c message).1

/-- The next line of a connection that is not closed is its first `EndRegexp`. -/
structure FirstEnd (a : Agent Code) (c : Handle) (line : Str) : Prop where
  opened : Network.Open a.ivy c
  comes : (a.flight c).head? = some line
  ends : isEnd line = true
  first : ∀ l ∈ a.read c, isEnd l = false

/-- The first `EndRegexp` of a connection makes it ready, and nothing else sends a `Msg` line to
any connection. -/
def ReadyInTime (engine : Engine Code) (message : Str) (a : Agent Code) (e : Event) : Prop :=
  (∀ c line, e = .deliver c → FirstEnd a c line → InTime engine message a c line) ∧
  ((∀ c line, e = .deliver c → ¬ FirstEnd a c line) → ∀ a', next engine a e = some a' →
    ∀ c, msgsTo c a'.ivy.outputs = msgsTo c a.ivy.outputs)

/-- The `Msg` lines that a connection got: those of one `ClientCall`, with what the peer announced
before its first `EndRegexp` in the dictionary, or none before that line. -/
def Readied (engine : Engine Code) (message : Str) (a : Agent Code) (c : Handle) : Prop :=
  if (a.read c).any isEnd then
    ∃ s : Ivy Code,
      (∀ p ∈ announced ((a.read c).takeWhile fun l => !isEnd l), (c, p.1) ∈ s.listed p.2) ∧
      (clientCall engine s c message).1.outputs = s.outputs ++ msgsTo c (since a c)
  else msgsTo c (since a c) = []

def AtMostOnce (engine : Engine Code) (message : Str) (a : Agent Code) : Prop :=
  ∀ c, Network.Open a.ivy c → Readied engine message a c

section Silent

variable {engine : Engine Code} {s u s' : Ivy Code} {c : Handle} {message line : Str}
  {clnt : IvyClient} {o : Output} {os : List Output}

theorem msgsTo_append (c : Handle) (os os' : List Output) :
    msgsTo c (os ++ os') = msgsTo c os ++ msgsTo c os' :=
  List.filter_append ..

theorem msgsTo_eq_nil (h : ∀ text, .send c text ∈ os → kindOf text ≠ some .msg) :
    msgsTo c os = [] := by
  rw [msgsTo, List.filter_eq_nil_iff]
  intro o ho
  cases o with
  | send client text =>
    simp only [Bool.and_eq_true, decide_eq_true_eq, not_and]
    rintro rfl
    exact h text ho
  | connected c => exact Bool.false_ne_true
  | close c => exact Bool.false_ne_true
  | bind c id r event => exact Bool.false_ne_true

def Silent (s s' : Ivy Code) (c : Handle) : Prop :=
  ∃ os, s'.outputs = s.outputs ++ os ∧ msgsTo c os = []

theorem Silent.refl (s : Ivy Code) (c : Handle) : Silent s s c :=
  ⟨[], (List.append_nil _).symm, rfl⟩

theorem Silent.grows (h : Silent s s' c) : s.outputs <+: s'.outputs := by
  obtain ⟨os, hos, -⟩ := h
  exact ⟨os, hos.symm⟩

theorem Silent.msgsTo_eq (h : Silent s s' c) : msgsTo c s'.outputs = msgsTo c s.outputs := by
  obtain ⟨os, hos, hnone⟩ := h
  rw [hos, msgsTo_append, hnone, List.append_nil]

theorem silent_of_mutters (h : Mutters s s') (c : Handle) : Silent s s' c := by
  obtain ⟨os, hos, hmild⟩ := h
  exact ⟨os, hos, msgsTo_eq_nil fun text htext => hmild _ htext⟩

theorem silent_of_kept (h : Kept engine s s') (c : Handle) : Silent s s' c := by
  obtain ⟨os, hos, hquiet⟩ := h.quiet
  refine ⟨os, hos, msgsTo_eq_nil fun text htext => ?_⟩
  have hnil := List.flatMap_eq_nil_iff.mp (hquiet c) _ htext
  dsimp only at hnil
  rw [if_pos rfl] at hnil
  rw [hnil]
  decide

theorem msgsTo_ownLines (d : List (MsgSndDict Code)) (c' : Handle) :
    msgsTo c' (d.flatMap (ownLines engine message c)) =
      if c' = c then d.flatMap (ownLines engine message c) else [] := by
  have hown : ∀ o ∈ d.flatMap (ownLines engine message c),
      ∃ clnt b, clnt.client = c ∧ o = matchLine b clnt := by
    intro o ho
    obtain ⟨msg, -, hin⟩ := List.mem_flatMap.mp ho
    obtain ⟨groups, -, hmem⟩ := mem_elim_nil hin
    obtain ⟨clnt, hclnt, rfl⟩ := List.mem_map.mp hmem
    exact ⟨clnt, _, of_decide_eq_true (List.mem_filter.mp hclnt).2, rfl⟩
  split
  · rename_i hc
    refine List.filter_eq_self.mpr fun o ho => ?_
    obtain ⟨clnt, b, hclient, rfl⟩ := hown o ho
    simp only [matchLine, Pairing.kindOf_header, hclient, hc, decide_true, Bool.and_self]
  · rename_i hne
    refine msgsTo_eq_nil fun text htext => ?_
    obtain ⟨clnt, b, hclient, heq⟩ := hown _ htext
    rw [matchLine, Output.send.injEq] at heq
    exact absurd (heq.1.trans hclient) hne

theorem receive_end (hready : s.readyMessage = some message) (hfind : s.findClient c = some clnt)
    (hopen : clnt.ignoreSubsequentMsg = false) (hend : isEnd line = true) :
    ∃ u : Ivy Code, u.outputs = s.outputs ++ [.connected c] ∧
      u.messSndByRegexp = s.messSndByRegexp ∧ receive engine s c line =
        some (if clnt.readyToSend = 1 then (clientCall engine u c message).1 else u) := by
  obtain ⟨hd, hparse, hkind⟩ := Option.bind_eq_some_iff.mp (of_decide_eq_true hend)
  have hclient : clnt.client = c := client_of_findClient hfind
  have hcount : (((s.setId c hd.id).emit (.connected c)).countReady c).findClient c =
      some { clnt with id := hd.id, readyToSend := clnt.readyToSend + 1 } := by
    rw [findClient_countReady]
    change ((s.setId c hd.id).findClient c).map _ = _
    rw [findClient_setId, hfind]
    simp [hclient]
  have hmessage : (((s.setId c hd.id).emit (.connected c)).countReady c).readyMessage =
      some message := hready
  refine ⟨((s.setId c hd.id).emit (.connected c)).countReady c, rfl, rfl, ?_⟩
  rw [receive_parsed hfind hopen hparse, hkind]
  dsimp only
  rw [announceReady_eq, hmessage, hcount]
  simp

theorem silent_receive (hopen : Network.Open s c) (hs' : receive engine s c line = some s')
    (hend : isEnd line = false) (c' : Handle) : Silent s s' c' := by
  obtain ⟨clnt, hfind, hignore⟩ := hopen
  have hheard : Pairing.heardEnd s c line = isEnd line := by
    rw [Pairing.heardEnd, Closing.heard, hfind, isEnd, kindOf]
    simp only [hignore, Bool.false_eq_true, if_false]
    cases parseHeader line with
    | none => rfl
    | some hd => rfl
  rcases Pairing.receive_mutters hs' with ⟨-, hmutters⟩ | ⟨htrue, -⟩
  · exact silent_of_mutters hmutters c'
  · rw [hheard, hend] at htrue
    cases htrue

theorem silent_others (hs' : receive engine s c line = some s') {c' : Handle} (hne : c' ≠ c) :
    Silent s s' c' := by
  rcases Pairing.receive_mutters hs' with ⟨-, hmutters⟩ | ⟨-, i, rfl⟩
  · exact silent_of_mutters hmutters c'
  have hcount : Silent s (((s.setId c i).emit (.connected c)).countReady c) c' :=
    ⟨[.connected c], rfl, rfl⟩
  rw [announceReady_eq]
  split
  · split
    · rename_i message _ _ _ _
      refine ⟨[.connected c] ++ s.messSndByRegexp.flatMap (ownLines engine message c), ?_, ?_⟩
      · rw [clientCall_eq, ← List.append_assoc]
        rfl
      · rw [msgsTo_append, msgsTo_ownLines, if_neg hne]
        rfl
    · exact hcount
  · exact hcount

end Silent

structure Served (engine : Engine Code) (message : Str) (a : Agent Code) (clnt : IvyClient) :
    Prop where
  ready : clnt.readyToSend = 1 + (a.read clnt.client).countP isEnd
  readied : Readied engine message a clnt.client
  applied : ∀ p ∈ announced (a.read clnt.client), (clnt.client, p.1) ∈ a.ivy.listed p.2
  greeted : Greeted a clnt.client

structure Inv (engine : Engine Code) (message : Str) (a : Agent Code) : Prop where
  wf : a.ivy.Wf
  ready : a.ivy.readyMessage = some message
  unfiltered : a.ivy.filter.messagesClasses = []
  served : ∀ clnt ∈ a.ivy.allClients, clnt.ignoreSubsequentMsg = false →
    Served engine message a clnt

section Served

variable {engine : Engine Code} {a a' : Agent Code} {c : Handle} {clnt clnt' : IvyClient}
  {message line : Str}

theorem mem_since (hstart : a'.start c = a.start c) (hgrows : a.ivy.outputs <+: a'.ivy.outputs)
    {o : Output} (h : o ∈ since a c) : o ∈ since a' c := by
  obtain ⟨os, hos⟩ := hgrows
  rw [since, hstart, ← hos, List.drop_append]
  exact List.mem_append_left _ h

theorem constants_of_frame {s s' : Ivy Code} (h : s'.frame = s.frame) :
    s'.applicationPort = s.applicationPort ∧ s'.applicationName = s.applicationName ∧
      s'.msgRecv = s.msgRecv :=
  ⟨(congrArg Ivy.applicationPort h : s'.frame.applicationPort = _),
    (congrArg Ivy.applicationName h : s'.frame.applicationName = _),
    (congrArg Ivy.msgRecv h : s'.frame.msgRecv = _)⟩

theorem greeted_of_greeting {s : Ivy Code} (hsince : since a c = s.greeting c)
    (hframe : a.ivy.frame = s.frame) : Greeted a c := by
  obtain ⟨hport, hname, hrecv⟩ := constants_of_frame hframe
  refine ⟨?_, fun msg hmsg => ?_, ?_⟩
  · rw [hsince, hport, hname]
    exact List.mem_cons_self
  · rw [hrecv] at hmsg
    rw [hsince]
    exact List.mem_cons_of_mem _ (List.mem_append_left _ (List.mem_map.mpr ⟨msg, hmsg, rfl⟩))
  · rw [hsince]
    exact List.mem_cons_of_mem _ (List.mem_append_right _ (List.mem_singleton_self _))

theorem Greeted.mono (h : Greeted a c) (hstart : a'.start c = a.start c)
    (hgrows : a.ivy.outputs <+: a'.ivy.outputs) (hframe : a'.ivy.frame = a.ivy.frame) :
    Greeted a' c := by
  obtain ⟨hport, hname, hrecv⟩ := constants_of_frame hframe
  refine ⟨?_, fun msg hmsg => ?_, mem_since hstart hgrows h.ended⟩
  · rw [hport, hname]
    exact mem_since hstart hgrows h.started
  · exact mem_since hstart hgrows (h.bindings msg (hrecv ▸ hmsg))

theorem Greeted.start_le (h : Greeted a c) : a.start c ≤ a.ivy.outputs.length := by
  have hpos := List.length_pos_of_mem h.ended
  rw [since, List.length_drop] at hpos
  omega

theorem since_append (hle : a.start c ≤ a.ivy.outputs.length) (hstart : a'.start c = a.start c)
    {os : List Output} (hout : a'.ivy.outputs = a.ivy.outputs ++ os) :
    since a' c = since a c ++ os := by
  rw [since, since, hstart, hout, List.drop_append_of_le_length hle]

theorem Readied.mono (h : Readied engine message a c) (hread : a'.read c = a.read c)
    (hmsgs : msgsTo c (since a' c) = msgsTo c (since a c)) : Readied engine message a' c := by
  rw [Readied, hread, hmsgs]
  exact h

theorem Served.mono (h : Served engine message a clnt) (hclient : clnt'.client = clnt.client)
    (hready : clnt'.readyToSend = clnt.readyToSend)
    (hread : a'.read clnt.client = a.read clnt.client)
    (hmsgs : msgsTo clnt.client (since a' clnt.client) = msgsTo clnt.client (since a clnt.client))
    (hlisted : ∀ p r, p.1 = clnt.client → p ∈ a.ivy.listed r → p ∈ a'.ivy.listed r)
    (hgreeted : Greeted a' clnt.client) : Served engine message a' clnt' := by
  constructor
  · rw [hclient, hready, hread]
    exact h.ready
  · rw [hclient]
    exact h.readied.mono hread hmsgs
  · rw [hclient, hread]
    exact fun p hp => hlisted _ _ rfl (h.applied p hp)
  · rw [hclient]
    exact hgreeted

theorem Silent.since_eq (h : Silent a.ivy a'.ivy c) (hgreeted : Greeted a c)
    (hstart : a'.start c = a.start c) : msgsTo c (since a' c) = msgsTo c (since a c) := by
  obtain ⟨os, hos, hnone⟩ := h
  rw [since_append hgreeted.start_le hstart hos, msgsTo_append, hnone, List.append_nil]

theorem any_eq_false_iff {l : List Str} :
    (l.any isEnd = false) ↔ l.countP isEnd = 0 := by
  rw [List.any_eq_false, List.countP_eq_zero]

theorem takeWhile_append_of_any {l : List Str} (h : l.any isEnd = true) (line : Str) :
    (l ++ [line]).takeWhile (fun l => !isEnd l) = l.takeWhile fun l => !isEnd l := by
  induction l with
  | nil => cases h
  | cons x l ih =>
    rw [List.cons_append]
    cases hx : isEnd x with
    | true =>
      rw [List.takeWhile_cons_of_neg (by simp [hx]), List.takeWhile_cons_of_neg (by simp [hx])]
    | false =>
      rw [List.any_cons, hx, Bool.false_or] at h
      rw [List.takeWhile_cons_of_pos (by simp [hx]), List.takeWhile_cons_of_pos (by simp [hx]),
        ih h]

theorem takeWhile_append_first {l : List Str} (h : l.any isEnd = false) (hend : isEnd line = true) :
    (l ++ [line]).takeWhile (fun l => !isEnd l) = l := by
  rw [List.any_eq_false] at h
  rw [List.takeWhile_append_of_pos fun x hx => by simpa using h x hx,
    List.takeWhile_cons_of_neg (by simp [hend]), List.append_nil]

theorem Readied.hear (h : Readied engine message a c) (hread : a'.read c = a.read c ++ [line])
    (hmsgs : msgsTo c (since a' c) = msgsTo c (since a c))
    (hline : isEnd line = true → (a.read c).any isEnd = true) :
    Readied engine message a' c := by
  rw [Readied, hread, hmsgs, List.any_append]
  rw [Readied] at h
  cases hany : (a.read c).any isEnd with
  | true =>
    rw [if_pos hany] at h
    rw [if_pos (by rfl), takeWhile_append_of_any hany]
    exact h
  | false =>
    have hother : isEnd line = false := by
      rw [← Bool.not_eq_true]
      exact fun hend => by simp [hany] at hline; simp [hend] at hline
    rw [if_neg (by simp [hany])] at h
    rw [if_neg (by simp [hother])]
    exact h

theorem announced_append (lines : List Str) (line : Str) :
    announced (lines ++ [line]) = (lineNote line).apply (announced lines) := by
  rw [announced, List.map_append, replay_append]
  rfl

theorem lineNote_parsed {h : Header} (hparse : parseHeader line = some h) : lineNote line =
    match MsgType.ofInt32 h.kindOfMsg with
    | some .addRegexp => .put h.id h.arg
    | some .delRegexp => .drop h.id
    | _ => .skip := by
  rw [lineNote, hparse]

theorem applied_line {s s' : Ivy Code} (hfilter : s.filter.messagesClasses = [])
    (htables : s'.tables = lineTables engine s c line) {l : List (Int32 × Str)}
    (h : ∀ p ∈ l, (c, p.1) ∈ s.listed p.2) :
    ∀ p ∈ (lineNote line).apply l, (c, p.1) ∈ s'.listed p.2 := by
  intro p hp
  change (c, p.1) ∈ s'.tables.listed p.2
  rw [htables]
  cases hparse : parseHeader line with
  | none =>
    rw [lineNote, hparse] at hp
    rw [lineTables, hparse]
    exact h p hp
  | some hd =>
    rw [lineNote_parsed hparse] at hp
    rw [lineTables_parsed hparse]
    split at hp
    · rename_i hkind
      rw [hkind, kindTables, if_pos (filter_passes hfilter hd.arg), Tables.mem_addOrChange]
      rcases List.mem_cons.mp hp with rfl | hp
      · exact Or.inl ⟨rfl, rfl⟩
      · exact Or.inr (h p hp)
    · rename_i hkind
      obtain ⟨hp, hne⟩ := List.mem_filter.mp hp
      rw [hkind, kindTables, Tables.mem_del]
      refine ⟨h p hp, fun _ heq => ?_⟩
      exact of_decide_eq_true hne (Prod.mk.inj heq).2
    · rename_i hadd hdel
      have hsame : kindTables engine s c hd (MsgType.ofInt32 hd.kindOfMsg) = s.tables := by
        unfold kindTables
        split
        · exact absurd ‹_› hadd
        · exact absurd ‹_› hdel
        · rfl
      rw [hsame]
      exact h p hp

end Served

section Steps

variable {engine : Engine Code} {a a' : Agent Code} {c : Handle} {clnt : IvyClient}
  {message line : Str} {rest : List Str} {s' : Ivy Code}

theorem Inv.mem_open (h : Inv engine message a) (hopen : Network.Open a.ivy c) :
    ∃ clnt, a.ivy.findClient c = some clnt ∧ clnt.ignoreSubsequentMsg = false ∧
      clnt.client = c ∧ Served engine message a clnt := by
  obtain ⟨clnt, hfind, hignore⟩ := hopen
  exact ⟨clnt, hfind, hignore, client_of_findClient hfind,
    h.served clnt (List.mem_of_find?_eq_some hfind) hignore⟩

theorem Served.ready_iff (h : Served engine message a clnt) :
    clnt.readyToSend = 1 ↔ (a.read clnt.client).any isEnd = false := by
  rw [h.ready, any_eq_false_iff]
  omega

theorem Inv.receive_end (h : Inv engine message a) (hopen : Network.Open a.ivy c)
    (hend : isEnd line = true) : ∃ u : Ivy Code, u.outputs = a.ivy.outputs ++ [.connected c] ∧
      u.messSndByRegexp = a.ivy.messSndByRegexp ∧ receive engine a.ivy c line =
        some (if (a.read c).any isEnd then u else (clientCall engine u c message).1) := by
  obtain ⟨clnt, hfind, hignore, rfl, hserved⟩ := h.mem_open hopen
  obtain ⟨u, hout, hdict, hreceive⟩ := Ready.receive_end h.ready hfind hignore hend
  refine ⟨u, hout, hdict, hreceive.trans (congrArg some ?_)⟩
  have hiff := hserved.ready_iff
  cases hany : (a.read clnt.client).any isEnd with
  | true => exact if_neg fun hone => by simp [hany] at hiff; exact hiff hone
  | false => exact if_pos (hiff.mpr hany)

theorem Inv.readied_line (h : Inv engine message a) (hopen : Network.Open a.ivy c)
    (hs' : receive engine a.ivy c line = some s') :
    Readied engine message (a.hear c line rest s') c := by
  obtain ⟨clnt, -, -, rfl, hserved⟩ := h.mem_open hopen
  have hread : (a.hear clnt.client line rest s').read clnt.client =
      a.read clnt.client ++ [line] := Function.update_self ..
  have hquiet : Silent a.ivy (a.hear clnt.client line rest s').ivy clnt.client →
      (isEnd line = true → (a.read clnt.client).any isEnd = true) →
      Readied engine message (a.hear clnt.client line rest s') clnt.client := fun hsilent hline =>
    hserved.readied.hear hread (hsilent.since_eq hserved.greeted rfl) hline
  cases hend : isEnd line with
  | false => exact hquiet (silent_receive hopen hs' hend _) fun htrue => by simp [hend] at htrue
  | true =>
    obtain ⟨u, hout, hdict, hreceive⟩ := h.receive_end hopen hend
    rw [hs', Option.some.injEq] at hreceive
    cases hany : (a.read clnt.client).any isEnd with
    | true =>
      rw [if_pos hany] at hreceive
      exact hquiet ⟨_, hreceive ▸ hout, rfl⟩ fun _ => hany
    | false =>
      rw [if_neg (by simp [hany]), clientCall_eq] at hreceive
      have hsince : since (a.hear clnt.client line rest s') clnt.client =
          since a clnt.client ++ ([.connected clnt.client] ++
            u.messSndByRegexp.flatMap (ownLines engine message clnt.client)) := by
        rw [since, since, ← List.drop_append_of_le_length hserved.greeted.start_le,
          ← List.append_assoc, ← hout]
        change s'.outputs.drop _ = _
        rw [hreceive]
        rfl
      have hnone : msgsTo clnt.client (since a clnt.client) = [] := by
        have hreadied := hserved.readied
        rwa [Readied, if_neg (by simp [hany])] at hreadied
      rw [Readied, hread, if_pos (by simp [hend]), takeWhile_append_first hany hend]
      refine ⟨u, fun p hp => ?_, ?_⟩
      · rw [Ivy.listed, hdict]
        exact hserved.applied p hp
      · rw [hsince, msgsTo_append, hnone, msgsTo_append, msgsTo_ownLines, if_pos rfl,
          clientCall_eq]
        rfl

theorem Inv.served_line (h : Inv engine message a) (hserved : Served engine message a clnt)
    (hopen : Network.Open a.ivy clnt.client)
    (hs' : receive engine a.ivy clnt.client line = some s')
    (hrec : Received engine a.ivy s' clnt.client line) {clnt' : IvyClient}
    (hclient : clnt'.client = clnt.client)
    (hready : clnt'.readyToSend = clnt.readyToSend + if isEnd line then 1 else 0) :
    Served engine message (a.hear clnt.client line rest s') clnt' := by
  have hread : (a.hear clnt.client line rest s').read clnt.client =
      a.read clnt.client ++ [line] := Function.update_self ..
  constructor
  · rw [hclient, hready, hread, hserved.ready, List.countP_append, List.countP_singleton]
    omega
  · rw [hclient]
    exact h.readied_line hopen hs'
  · rw [hclient, hread, announced_append]
    exact applied_line h.unfiltered hrec.tables_eq hserved.applied
  · rw [hclient]
    exact hserved.greeted.mono rfl (Pairing.raises_receive hs').grows hrec.frame_eq

theorem Inv.of_frame (h : Inv engine message a) (hwf : a'.ivy.Wf)
    (hframe : a'.ivy.frame = a.ivy.frame)
    (hserved : ∀ clnt ∈ a'.ivy.allClients, clnt.ignoreSubsequentMsg = false →
      Served engine message a' clnt) : Inv engine message a' := by
  have hready : a'.ivy.readyMessage = a.ivy.readyMessage :=
    (congrArg Ivy.readyMessage hframe : a'.ivy.frame.readyMessage = _)
  refine ⟨hwf, hready.trans h.ready, ?_, hserved⟩
  rw [Network.filter_of_frame hframe]
  exact h.unfiltered

theorem Served.others (hserved : Served engine message a clnt) (hne : clnt.client ≠ c)
    (hframe : s'.frame = a.ivy.frame)
    (hsilent : Silent a.ivy (a.hear c line rest s').ivy clnt.client)
    (hlisted : ∀ p : Sub, p.1 ≠ c → ∀ r, p ∈ a.ivy.listed r → p ∈ s'.listed r)
    {clnt' : IvyClient} (hclient : clnt'.client = clnt.client)
    (hready : clnt'.readyToSend = clnt.readyToSend) :
    Served engine message (a.hear c line rest s') clnt' :=
  hserved.mono hclient hready (Function.update_of_ne hne ..)
    (hsilent.since_eq hserved.greeted rfl)
    (fun p r hp => hlisted p (hp ▸ hne) r) (hserved.greeted.mono rfl hsilent.grows hframe)

theorem Inv.hear (h : Inv engine message a) (hfind : a.ivy.findClient c = some clnt)
    (hs' : receive engine a.ivy c line = some s') :
    Inv engine message (a.hear c line rest s') := by
  cases hignore : clnt.ignoreSubsequentMsg with
  | true =>
    rw [receive_ignored hfind hignore] at hs'
    obtain rfl := Option.some.inj hs'
    refine h.of_frame h.wf rfl fun clnt' hclnt' hopen' => ?_
    have hne : clnt'.client ≠ c := by
      rintro rfl
      have hfound : a.ivy.findClient clnt'.client = some clnt' :=
        find?_cell h.wf.clients.handles hclnt'
      rw [hfind] at hfound
      rw [Option.some.inj hfound, hopen'] at hignore
      cases hignore
    exact (h.served clnt' hclnt' hopen').others hne rfl (Silent.refl _ _) (fun _ _ _ hp => hp) rfl
      rfl
  | false =>
    have hrec := h.wf.receive hfind hignore hs'
    refine h.of_frame hrec.wf hrec.frame_eq fun clnt' hclnt' hopen' => ?_
    obtain ⟨clnt₀, h₀, hclient, hready, hopen₀⟩ := hrec.heirs clnt' hclnt'
    have hserved := h.served clnt₀ h₀ (hopen₀ hopen')
    by_cases hc : clnt₀.client = c
    · subst hc
      have hend :
          (if kindOf line = some .endRegexp then 1 else 0) = if isEnd line then 1 else 0 := by
        rw [isEnd]
        simp only [decide_eq_true_eq]
      rw [if_pos hclient, hend] at hready
      exact h.served_line hserved ⟨clnt, hfind, hignore⟩ hs' hrec hclient hready
    · rw [if_neg (hclient ▸ hc), Nat.add_zero] at hready
      have hkept : ∀ p : Sub, p.1 ≠ c → ∀ r, p ∈ a.ivy.listed r → p ∈ s'.listed r := by
        intro p hne r hp
        change p ∈ s'.tables.listed r
        rw [hrec.tables_eq]
        exact mem_lineTables_of_ne hne hp
      exact hserved.others hc hrec.frame_eq (silent_others hs' hc) hkept hclient hready

theorem setUp_served (hserved : Served engine message a clnt) (hne : clnt.client ≠ c)
    (info : SocketInfo) : Served engine message (a.setUp c info) clnt := by
  have hsince : since (a.setUp c info) clnt.client = since a clnt.client := by
    rw [since, Agent.setUp]
    dsimp only
    rw [Function.update_of_ne hne]
    rfl
  have hgreeted : Greeted (a.setUp c info) clnt.client := by
    refine ⟨?_, fun msg hmsg => ?_, ?_⟩
    · exact hsince ▸ hserved.greeted.started
    · exact hsince ▸ hserved.greeted.bindings msg hmsg
    · exact hsince ▸ hserved.greeted.ended
  exact hserved.mono rfl rfl (Function.update_of_ne hne ..) (congrArg _ hsince)
    (fun _ _ _ hp => hp) hgreeted

theorem Inv.setUp (h : Inv engine message a) (hnew : a.ivy.findClient c = none)
    (info : SocketInfo) : Inv engine message (a.setUp c info) := by
  refine ⟨⟨h.wf.dict, h.wf.clients⟩, h.ready, h.unfiltered, fun clnt hclnt hopen => ?_⟩
  refine setUp_served (h.served clnt hclnt hopen) (fun heq => ?_) info
  exact List.find?_eq_none.mp hnew clnt hclnt (decide_eq_true heq)

theorem Inv.greet (h : Inv engine message a) (hnew : a.ivy.findClient c = none)
    (hread : a.read c = []) (hstart : a.start c = a.ivy.outputs.length) (appname : Str) :
    Inv engine message (a.put (sendService engine a.ivy c appname)) := by
  obtain ⟨hwf, hframe, htables⟩ := h.wf.sendService engine hnew appname
  have hout : (sendService engine a.ivy c appname).outputs = a.ivy.outputs ++ a.ivy.greeting c := by
    rw [sendService_eq engine hnew]
  have hsilent := silent_of_mutters (Pairing.mutters_sendService engine hnew appname)
  refine h.of_frame hwf hframe fun clnt hclnt hopen => ?_
  have hclnt' := hclnt
  change clnt ∈ (sendService engine a.ivy c appname).allClients at hclnt'
  rw [sendService_eq engine hnew] at hclnt'
  rcases List.mem_cons.mp hclnt' with rfl | hold
  · have hsince : since (a.put (sendService engine a.ivy c appname)) c =
        a.ivy.greeting c := by
      change (sendService engine a.ivy c appname).outputs.drop (a.start c) = _
      rw [hout, hstart, List.drop_left]
    constructor
    · change 1 = 1 + (a.read c).countP isEnd
      rw [hread]
      rfl
    · have hnone : msgsTo c (sendService engine a.ivy c appname).outputs =
          msgsTo c a.ivy.outputs := (hsilent c).msgsTo_eq
      rw [hout, msgsTo_append, List.append_right_eq_self] at hnone
      rw [Readied, if_neg (by simp [Agent.put, newNode, hread])]
      exact (congrArg (msgsTo c) hsince).trans hnone
    · change ∀ p ∈ announced (a.read c), _
      rw [hread]
      exact List.forall_mem_nil _
    · exact greeted_of_greeting hsince hframe
  · have hne : clnt.client ≠ c := fun heq =>
      List.find?_eq_none.mp hnew clnt hold (decide_eq_true heq)
    have hlisted : (sendService engine a.ivy c appname).listed = a.ivy.listed :=
      congrArg Tables.listed htables
    have hserved := h.served clnt hold hopen
    refine hserved.mono rfl rfl rfl ((hsilent clnt.client).since_eq hserved.greeted rfl)
      (fun p r _ hp => ?_) (hserved.greeted.mono rfl (hsilent clnt.client).grows hframe)
    exact (congrFun hlisted r).symm ▸ hp

theorem Inv.clientCreate (h : Inv engine message a) (hnew : a.ivy.findClient c = none)
    (hread : a.read c = []) (hstart : a.start c = a.ivy.outputs.length) (appname : Str) :
    Inv engine message (a.put (clientCreate engine a.ivy c appname)) := by
  rw [Ivy.clientCreate]
  split
  · refine h.of_frame (h.wf.emit _) rfl fun clnt hclnt hopen => ?_
    have hsilent : Silent a.ivy (a.put (a.ivy.socketClose c)).ivy clnt.client :=
      ⟨[.close c], rfl, rfl⟩
    have hserved := h.served clnt hclnt hopen
    exact hserved.mono rfl rfl rfl (hsilent.since_eq hserved.greeted rfl) (fun _ _ _ hp => hp)
      (hserved.greeted.mono rfl hsilent.grows rfl)
  · exact h.greet hnew hread hstart appname

theorem Inv.announce (h : Inv engine message a) (hwf : s'.Wf) (hmutters : Mutters a.ivy s')
    (hclients : s'.allClients = a.ivy.allClients)
    (hready : s'.readyMessage = a.ivy.readyMessage) (hfilter : s'.filter = a.ivy.filter)
    (hport : s'.applicationPort = a.ivy.applicationPort)
    (hname : s'.applicationName = a.ivy.applicationName)
    (hlisted : s'.listed = a.ivy.listed) {os : List Output}
    (hout : s'.outputs = a.ivy.outputs ++ os)
    (hrecv : ∀ clnt ∈ a.ivy.allClients, ∀ msg ∈ s'.msgRecv, msg ∈ a.ivy.msgRecv ∨
      .send clnt.client (msgText .addRegexp msg.id msg.regexp) ∈ os) :
    Inv engine message (a.put s') := by
  have hgrows : a.ivy.outputs <+: s'.outputs := ⟨os, hout.symm⟩
  refine ⟨hwf, hready.trans h.ready, ?_, fun clnt hclnt hopen => ?_⟩
  · change s'.filter.messagesClasses = []
    rw [hfilter]
    exact h.unfiltered
  · change clnt ∈ s'.allClients at hclnt
    rw [hclients] at hclnt
    have hserved := h.served clnt hclnt hopen
    have hgreeted := hserved.greeted
    have hafter : Greeted (a.put s') clnt.client := by
      have hsince : ∀ o ∈ since a clnt.client, o ∈ since (a.put s') clnt.client :=
        fun _ => @mem_since Code a (a.put s') clnt.client rfl hgrows _
      refine ⟨?_, fun msg hmsg => ?_, hsince _ hgreeted.ended⟩
      · change Output.send _ (msgText _ (Int32.ofNat s'.applicationPort.toNat)
          s'.applicationName) ∈ _
        rw [hport, hname]
        exact hsince _ hgreeted.started
      · rcases hrecv clnt hclnt msg hmsg with hold | hnew
        · exact hsince _ (hgreeted.bindings msg hold)
        · change _ ∈ s'.outputs.drop (a.start clnt.client)
          rw [hout, List.drop_append_of_le_length hgreeted.start_le]
          exact List.mem_append_right _ hnew
    have hsilent : Silent a.ivy (a.put s').ivy clnt.client := silent_of_mutters hmutters _
    refine hserved.mono rfl rfl rfl (hsilent.since_eq hgreeted rfl) (fun p r _ hp => ?_) hafter
    exact (congrFun hlisted r).symm ▸ hp

theorem Inv.bind (h : Inv engine message a) {regexp : Str}
    (hs' : ivyBindMsg a.ivy regexp = some s') : Inv engine message (a.put s') := by
  have hmutters := Pairing.mutters_ivyBindMsg hs'
  rw [ivyBindMsg] at hs'
  split at hs'
  · cases hs'
  · rw [msgSendToAll, Network.foldl_msgSendToAll] at hs'
    obtain rfl := Option.some.inj hs'
    refine h.announce ⟨h.wf.dict.mono (Nat.le_succ _), h.wf.clients.mono (Nat.le_succ _)⟩ hmutters
      rfl rfl rfl rfl rfl rfl rfl fun clnt hclnt msg hmsg => ?_
    rcases List.mem_cons.mp hmsg with rfl | hmsg
    · exact Or.inr (List.mem_map.mpr ⟨clnt, hclnt, rfl⟩)
    · exact Or.inl hmsg

theorem Inv.unbind (h : Inv engine message a) {addr : Nat}
    (hs' : ivyUnbindMsg a.ivy addr = some s') : Inv engine message (a.put s') := by
  have hmutters := Pairing.mutters_ivyUnbindMsg hs'
  obtain ⟨msg, -, rfl⟩ := Option.map_eq_some_iff.mp hs'
  rw [msgSendToAll, Network.foldl_msgSendToAll] at hmutters ⊢
  refine h.announce ⟨h.wf.dict, h.wf.clients⟩ hmutters rfl rfl rfl rfl rfl rfl rfl
    fun clnt hclnt msg hmsg => Or.inl ?_
  exact List.eraseP_sublist.subset hmsg

theorem Inv.drop (h : Inv engine message a) (hs' : a.ivy.delOneClient c = some s') :
    Inv engine message { a with ivy := s', flight := Function.update a.flight c [] } := by
  have hd := h.wf.of_delOneClient hs'
  have hkept : Kept engine a.ivy s' := kept_delOneClient hs'
  refine h.of_frame hd.wf hd.frame_eq fun clnt hclnt hopen => ?_
  obtain ⟨hne, clnt₀, h₀, heq⟩ := hd.heir hclnt
  have hclient : (bare clnt).client = (bare clnt₀).client := congrArg _ heq.symm
  have hready : (bare clnt).readyToSend = (bare clnt₀).readyToSend := congrArg _ heq.symm
  have hignore : (bare clnt₀).ignoreSubsequentMsg = (bare clnt).ignoreSubsequentMsg :=
    congrArg _ heq
  have hserved := h.served clnt₀ h₀ (hignore.trans hopen)
  have hsilent : Silent a.ivy s' clnt₀.client := silent_of_kept hkept _
  have hsince : msgsTo clnt₀.client (since { a with
      ivy := s', flight := Function.update a.flight c [] } clnt₀.client) = _ :=
    Silent.since_eq hsilent hserved.greeted rfl
  refine hserved.mono hclient hready rfl hsince (fun p r hp hmem => ?_)
    (hserved.greeted.mono rfl hsilent.grows hd.frame_eq)
  change p ∈ s'.tables.listed r
  rw [hd.tables_eq]
  refine Tables.mem_disconnect.mpr ⟨hmem, ?_⟩
  rw [hp]
  exact hclient ▸ hne

theorem Inv.say (h : Inv engine message a) (c : Handle) (lines : List Str) :
    Inv engine message { a with flight := Function.update a.flight c lines } :=
  h.of_frame h.wf rfl fun clnt hclnt hopen =>
    have hserved := h.served clnt hclnt hopen
    hserved.mono rfl rfl rfl rfl (fun _ _ _ hp => hp)
      (hserved.greeted.mono rfl (List.prefix_refl _) rfl)

theorem Inv.next (h : Inv engine message a) {e : Event} (ha' : next engine a e = some a') :
    Inv engine message a' := by
  cases e with
  | connect c info appname =>
    refine preserved_unless h ha' fun hnew ha' => ?_
    rw [Bool.not_eq_true, Option.isSome_eq_false_iff, Option.isNone_iff_eq_none] at hnew
    obtain rfl := Option.some.inj ha'
    exact (h.setUp hnew info).greet hnew (Function.update_self ..) (Function.update_self ..)
      appname
  | accept c info appname =>
    refine preserved_unless h ha' fun hnew ha' => ?_
    rw [Bool.not_eq_true, Option.isSome_eq_false_iff, Option.isNone_iff_eq_none] at hnew
    obtain rfl := Option.some.inj ha'
    exact (h.setUp hnew info).clientCreate hnew (Function.update_self ..)
      (Function.update_self ..) appname
  | say c line =>
    obtain rfl := Option.some.inj ha'
    exact h.say c _
  | deliver c =>
    rw [Ready.next, Ready.deliver] at ha'
    split at ha'
    · rename_i line rest clnt _ hfind
      obtain ⟨s', hs', rfl⟩ := Option.map_eq_some_iff.mp ha'
      exact h.hear hfind hs'
    · exact Option.some.inj ha' ▸ h
  | bind regexp =>
    obtain ⟨s', hs', rfl⟩ := Option.map_eq_some_iff.mp ha'
    exact h.bind hs'
  | unbind addr =>
    obtain ⟨s', hs', rfl⟩ := Option.map_eq_some_iff.mp ha'
    exact h.unbind hs'
  | drop c =>
    obtain ⟨s', hs', rfl⟩ := Option.map_eq_some_iff.mp ha'
    exact h.drop hs'

theorem Inv.silent_line (h : Inv engine message a) (hfind : a.ivy.findClient c = some clnt)
    (hs' : receive engine a.ivy c line = some s') (hother : ¬ FirstEnd a c line)
    (hcomes : (a.flight c).head? = some line) (d : Handle) : Silent a.ivy s' d := by
  cases hignore : clnt.ignoreSubsequentMsg with
  | true =>
    rw [receive_ignored hfind hignore] at hs'
    exact Option.some.inj hs' ▸ Silent.refl _ _
  | false =>
    have hopen : Network.Open a.ivy c := ⟨clnt, hfind, hignore⟩
    cases hend : isEnd line with
    | false => exact silent_receive hopen hs' hend d
    | true =>
      have hany : (a.read c).any isEnd = true := by
        by_contra hnone
        rw [Bool.not_eq_true, List.any_eq_false] at hnone
        exact hother ⟨hopen, hcomes, hend, fun l hl => by simpa using hnone l hl⟩
      obtain ⟨u, hout, -, hreceive⟩ := h.receive_end hopen hend
      rw [hs', Option.some.injEq, if_pos hany] at hreceive
      exact ⟨_, hreceive ▸ hout, rfl⟩

/-- Nothing but the first `EndRegexp` of a connection sends a `Msg` line. -/
theorem Inv.silent (h : Inv engine message a) {e : Event} (ha' : Ready.next engine a e = some a')
    (hother : ∀ c line, e = .deliver c → ¬ FirstEnd a c line) (c : Handle) :
    Silent a.ivy a'.ivy c := by
  cases e with
  | connect d info appname =>
    refine preserved_unless (I := fun a' : Agent Code => Silent a.ivy a'.ivy c)
      (Silent.refl _ _) ha' fun hnew ha' => ?_
    rw [Bool.not_eq_true, Option.isSome_eq_false_iff, Option.isNone_iff_eq_none] at hnew
    obtain rfl := Option.some.inj ha'
    have hnew' : (a.setUp d info).ivy.findClient d = none := hnew
    exact silent_of_mutters (Pairing.mutters_sendService engine hnew' appname) c
  | accept d info appname =>
    refine preserved_unless (I := fun a' : Agent Code => Silent a.ivy a'.ivy c)
      (Silent.refl _ _) ha' fun hnew ha' => ?_
    rw [Bool.not_eq_true, Option.isSome_eq_false_iff, Option.isNone_iff_eq_none] at hnew
    obtain rfl := Option.some.inj ha'
    have hnew' : (a.setUp d info).ivy.findClient d = none := hnew
    exact silent_of_mutters (Pairing.mutters_clientCreate engine hnew' appname) c
  | say d line =>
    obtain rfl := Option.some.inj ha'
    exact Silent.refl _ _
  | deliver d =>
    rw [Ready.next, Ready.deliver] at ha'
    split at ha'
    · rename_i line rest clnt hflight hfind
      obtain ⟨s', hs', rfl⟩ := Option.map_eq_some_iff.mp ha'
      exact h.silent_line hfind hs' (hother d line rfl) (by rw [hflight]; rfl) c
    · exact Option.some.inj ha' ▸ Silent.refl _ _
  | bind regexp =>
    obtain ⟨s', hs', rfl⟩ := Option.map_eq_some_iff.mp ha'
    exact silent_of_mutters (Pairing.mutters_ivyBindMsg hs') c
  | unbind addr =>
    obtain ⟨s', hs', rfl⟩ := Option.map_eq_some_iff.mp ha'
    exact silent_of_mutters (Pairing.mutters_ivyUnbindMsg hs') c
  | drop d =>
    obtain ⟨s', hs', rfl⟩ := Option.map_eq_some_iff.mp ha'
    have hkept : Kept engine a.ivy s' := kept_delOneClient hs'
    exact silent_of_kept hkept c

theorem Inv.readyInTime (h : Inv engine message a) (e : Event) :
    ReadyInTime engine message a e := by
  refine ⟨fun c line _ hfirst => ?_, fun hother a' ha' c => (h.silent ha' hother c).msgsTo_eq⟩
  obtain ⟨clnt, -, -, rfl, hserved⟩ := h.mem_open hfirst.opened
  obtain ⟨u, hout, hdict, hreceive⟩ := h.receive_end hfirst.opened hfirst.ends
  have hany : (a.read clnt.client).any isEnd = false := by
    rw [List.any_eq_false]
    exact fun l hl => by simp [hfirst.first l hl]
  rw [if_neg (by simp [hany])] at hreceive
  exact ⟨hserved.greeted, hserved.applied, u, hout, hdict, hreceive⟩

theorem Inv.atMostOnce (h : Inv engine message a) : AtMostOnce engine message a := by
  intro c hopen
  obtain ⟨clnt, -, -, rfl, hserved⟩ := h.mem_open hopen
  exact hserved.readied

end Steps

theorem Inv.alone (engine : Engine Code) {s : Ivy Code} {message : Str}
    (hready : s.readyMessage = some message) (hfilter : s.filter.messagesClasses = []) :
    Inv engine message (alone s) :=
  ⟨⟨⟨List.nodup_nil, List.forall_mem_nil _⟩, ⟨List.nodup_nil, List.forall_mem_nil _⟩⟩, hready,
    hfilter, List.forall_mem_nil _⟩

/-- In any run, the ready message comes once on each connection, at its first `EndRegexp`. -/
theorem ready_once (engine : Engine Code) (s : Ivy Code) (message : Str)
    (hready : s.readyMessage = some message) (hfilter : s.filter.messagesClasses = [])
    (es : List Event) : Along (next engine) (ReadyInTime engine message) (alone s) es ∧
      ∀ a, run (next engine) (alone s) es = some a → AtMostOnce engine message a := by
  obtain ⟨halong, hrun⟩ := along_invariant (fun _ _ _ h ha' => Inv.next h ha')
    (fun _ e h => Inv.readyInTime h e) (Inv.alone engine hready hfilter) es
  exact ⟨halong, fun a ha => (hrun a ha).atMostOnce⟩

def waiting : Ivy Str := { (default : Ivy Str) with readyMessage := some (ascii "ready") }

def repeated : List Event :=
  [.accept 1 ⟨1, 0, 0⟩ [], .say 1 (header .addRegexp 1 ++ ascii "ready"),
    .say 1 (header .endRegexp 0), .say 1 (header .endRegexp 0), .deliver 1, .deliver 1, .deliver 1]

theorem ready_once_repeated : ∃ a, run (next literal) (alone waiting) repeated = some a ∧
    AtMostOnce literal (ascii "ready") a ∧ (msgsTo 1 (since a 1)).length = 1 := by
  obtain ⟨-, honce⟩ := ready_once literal waiting (ascii "ready") rfl rfl repeated
  exact ⟨_, rfl, honce _ rfl, by decide⟩

end IvyBus.Ready
