import IvyBus.Deletion

namespace IvyBus.Handles

open Lib Ivy

variable {Code : Type}

/-- An agent with the connections that are not deleted yet, and which of them are marked. -/
structure Agent (Code : Type) where
  ivy : Ivy Code
  clients : List Handle
  tobedeleted : Handle → Bool

def news (s s' : Ivy Code) : List Output := s'.outputs.drop s.outputs.length

def Agent.put (a : Agent Code) (s : Ivy Code) : Agent Code :=
  { a with
    ivy := s
    tobedeleted := fun c => a.tobedeleted c || (news a.ivy s).contains (.close c) }

def Agent.open (a : Agent Code) (c : Handle) (info : SocketInfo) : Agent Code :=
  { ivy := { a.ivy with sockets := Function.update a.ivy.sockets c info }
    clients := c :: a.clients
    tobedeleted := Function.update a.tobedeleted c false }

/-- `DeleteSocket`, with the ids that `delOneClient` reads. -/
def deleteSocket (ids : List Int32) (a : Agent Code) (c : Handle) : Option (Agent Code) :=
  (delOneClientReading ids a.ivy c).map fun s =>
    { a with ivy := s, clients := a.clients.filter (· ≠ c) }

/-- `hangUp` is the end of a stream, and `delete` what `ChannelDefferedDelete` does with a marked
channel. A refused connection has no node, and is not read before it is deleted. -/
inductive Event
  | connect (c : Handle) (info : SocketInfo) (appname : Str)
  | accept (c : Handle) (info : SocketInfo) (appname : Str)
  | line (c : Handle) (bytes : Str)
  | hangUp (c : Handle)
  | delete (c : Handle) (ids : List Int32)
  | bind (regexp : Str)
  | unbind (addr : Nat)
  | change (addr : Nat) (regexp : Str)
  | send (message : Str)

def next (engine : Engine Code) (a : Agent Code) : Event → Option (Agent Code)
  | .connect c info appname =>
    if c ∈ a.clients then some a
    else
      let a := a.open c info
      some (a.put (sendService engine a.ivy c appname))
  | .accept c info appname =>
    if c ∈ a.clients then some a
    else
      let a := a.open c info
      some (a.put (clientCreate engine a.ivy c appname))
  | .line c bytes =>
    if (a.ivy.findClient c).isSome then (receive engine a.ivy c bytes).map a.put else some a
  | .hangUp c => some { a with tobedeleted := Function.update a.tobedeleted c true }
  | .delete c ids =>
    if c ∈ a.clients ∧ a.tobedeleted c = true then deleteSocket ids a c else some a
  | .bind regexp => (ivyBindMsg a.ivy regexp).map a.put
  | .unbind addr => (ivyUnbindMsg a.ivy addr).map a.put
  | .change addr regexp => (ivyChangeMsg a.ivy addr regexp).map a.put
  | .send message => some (a.put (ivySendMsg engine a.ivy message).1)

def alone (s : Ivy Code) : Agent Code :=
  ⟨{ s with allClients := [], messSndByRegexp := [] }, [], fun _ => false⟩

/-- The lists hold no deleted handle, and the dictionary no empty or repeated entry. -/
structure Clean (a : Agent Code) : Prop where
  nodes : ∀ clnt ∈ a.ivy.allClients, clnt.client ∈ a.clients
  subscribers : ∀ e ∈ a.ivy.messSndByRegexp, ∀ clnt ∈ e.clientList, clnt.client ∈ a.clients
  subscribed : ∀ e ∈ a.ivy.messSndByRegexp, e.clientList ≠ []
  keys : (a.ivy.messSndByRegexp.map MsgSndDict.regexpSrc).Nodup

def sentTo (os : List Output) : List Handle := os.filterMap fun
  | .send c _ => some c
  | _ => none

def ToClients (engine : Engine Code) (a : Agent Code) (e : Event) : Prop :=
  ∀ a', next engine a e = some a' → ∀ c ∈ sentTo (news a.ivy a'.ivy), c ∈ a.clients

/-- A deletion takes the handle away; the calls of the application send to no deleted handle. -/
def NotWritten (engine : Engine Code) (a : Agent Code) : Event → Prop
  | .delete c ids => c ∈ a.clients → a.tobedeleted c = true →
      ∃ a', next engine a (.delete c ids) = some a' ∧ c ∉ a'.clients
  | .bind regexp => ToClients engine a (.bind regexp)
  | .unbind addr => ToClients engine a (.unbind addr)
  | .change addr regexp => ToClients engine a (.change addr regexp)
  | .send message => ToClients engine a (.send message)
  | _ => True

structure Inv (a : Agent Code) : Prop where
  wf : a.ivy.Wf
  nodes : ∀ clnt ∈ a.ivy.allClients, clnt.client ∈ a.clients
  listed : ∀ r, ∀ p ∈ a.ivy.listed r, p.1 ∈ a.clients

section Steps

variable {engine : Engine Code} {a a' : Agent Code} {c : Handle} {s' : Ivy Code}

theorem Inv.clean (h : Inv a) : Clean a := by
  refine ⟨h.nodes, fun e he clnt hclnt => ?_, fun e he => (h.wf.dict.entries e he).ne_nil,
    h.wf.dict.keys⟩
  have hfind : a.ivy.findEntry e.regexpSrc = some e := find?_cell h.wf.dict.keys he
  refine h.listed e.regexpSrc (sub clnt) ?_
  rw [Ivy.listed, subscribers_of_find? hfind]
  exact List.mem_map_of_mem hclnt

theorem Inv.of_handles (h : Inv a) (hwf : s'.Wf)
    (hhandles : s'.allClients.map IvyClient.client = a.ivy.allClients.map IvyClient.client)
    (hlisted : ∀ r, ∀ p ∈ s'.listed r, p.1 ∈ a.clients) : Inv (a.put s') := by
  refine ⟨hwf, fun clnt hclnt => ?_, hlisted⟩
  have hmem : clnt.client ∈ s'.allClients.map IvyClient.client := List.mem_map_of_mem hclnt
  rw [hhandles] at hmem
  obtain ⟨clnt', hclnt', heq⟩ := List.mem_map.mp hmem
  rw [← heq]
  exact h.nodes clnt' hclnt'

theorem Inv.line (h : Inv a) {bytes : Str} (hs' : receive engine a.ivy c bytes = some s') :
    Inv (a.put s') := by
  obtain ⟨hwf, hlisted⟩ := h.wf.of_receive hs'
  refine h.of_handles hwf (handles_receive h.wf hs') fun r p hp => ?_
  rcases hlisted r p hp with ⟨rfl, hnode⟩ | hold
  · rw [findClient_isSome] at hnode
    obtain ⟨clnt, hclnt, heq⟩ := List.mem_map.mp hnode
    exact heq ▸ h.nodes clnt hclnt
  · exact h.listed r p hold

theorem Inv.findClient_none (h : Inv a) (hnew : c ∉ a.clients) : a.ivy.findClient c = none := by
  rw [findClient, List.find?_eq_none]
  exact fun clnt hclnt heq => hnew (of_decide_eq_true heq ▸ h.nodes clnt hclnt)

theorem Inv.open (h : Inv a) (c : Handle) (info : SocketInfo) : Inv (a.open c info) :=
  ⟨⟨h.wf.dict, h.wf.clients⟩, fun clnt hclnt => List.mem_cons_of_mem _ (h.nodes clnt hclnt),
    fun r p hp => List.mem_cons_of_mem _ (h.listed r p hp)⟩

theorem Inv.sendService (h : Inv a) (hc : c ∈ a.clients) (hnew : a.ivy.findClient c = none)
    (appname : Str) : Inv (a.put (sendService engine a.ivy c appname)) := by
  obtain ⟨hwf, -, htables⟩ := h.wf.sendService engine hnew appname
  refine ⟨hwf, fun clnt hclnt => ?_, fun r p hp => h.listed r p ?_⟩
  · change clnt ∈ (Ivy.sendService engine a.ivy c appname).allClients at hclnt
    rw [sendService_eq engine hnew] at hclnt
    rcases List.mem_cons.mp hclnt with rfl | hold
    · exact hc
    · exact h.nodes clnt hold
  · change p ∈ (Ivy.sendService engine a.ivy c appname).tables.listed r at hp
    rw [htables] at hp
    exact hp

theorem Inv.delete (h : Inv a) {ids : List Int32} (ha' : deleteSocket ids a c = some a') :
    Inv a' := by
  obtain ⟨s', hs', rfl⟩ := Option.map_eq_some_iff.mp ha'
  obtain ⟨t, ht, hdis⟩ := h.wf.delOneClientReading ids c
  obtain rfl := Option.some.inj (ht.symm.trans hs')
  refine ⟨hdis.wf, fun clnt hclnt => ?_, fun r p hp => ?_⟩
  · have hmem : clnt.client ∈ t.allClients.map IvyClient.client := List.mem_map_of_mem hclnt
    rw [hdis.handles] at hmem
    obtain ⟨hold, hne⟩ := List.mem_filter.mp hmem
    obtain ⟨clnt', hclnt', heq⟩ := List.mem_map.mp hold
    exact List.mem_filter.mpr ⟨heq ▸ h.nodes clnt' hclnt', hne⟩
  · change p ∈ t.tables.listed r at hp
    rw [hdis.tables_eq, Tables.mem_disconnect] at hp
    exact List.mem_filter.mpr ⟨h.listed r p hp.1, decide_eq_true hp.2⟩

structure Announces (s s' : Ivy Code) : Prop where
  clients_eq : s'.allClients = s.allClients
  dict_eq : s'.messSndByRegexp = s.messSndByRegexp
  brk_le : s.brk ≤ s'.brk
  outputs_eq : ∃ bytes, s'.outputs =
    s.outputs ++ s.allClients.map fun clnt => .send clnt.client bytes

theorem announces_bind {s : Ivy Code} {regexp : Str} (hs' : ivyBindMsg s regexp = some s') :
    Announces s s' := by
  rw [ivyBindMsg] at hs'
  split at hs'
  · cases hs'
  · rw [msgSendToAll, Network.foldl_msgSendToAll] at hs'
    rw [← Option.some.inj hs']
    exact ⟨rfl, rfl, Nat.le_succ _, _, rfl⟩

theorem announces_unbind {s : Ivy Code} {addr : Nat} (hs' : ivyUnbindMsg s addr = some s') :
    Announces s s' := by
  obtain ⟨msg, -, rfl⟩ := Option.map_eq_some_iff.mp hs'
  rw [msgSendToAll, Network.foldl_msgSendToAll]
  exact ⟨rfl, rfl, le_rfl, _, rfl⟩

theorem announces_change {s : Ivy Code} {addr : Nat} {regexp : Str}
    (hs' : ivyChangeMsg s addr regexp = some s') : Announces s s' := by
  obtain ⟨msg, -, rfl⟩ := Option.map_eq_some_iff.mp hs'
  dsimp only
  rw [msgSendToAll, Network.foldl_msgSendToAll]
  exact ⟨rfl, rfl, le_rfl, _, rfl⟩

theorem Announces.wf {s s' : Ivy Code} (hs' : Announces s s') (h : s.Wf) : s'.Wf := by
  obtain ⟨hclients, hdict, hbrk, -⟩ := hs'
  refine ⟨?_, ?_⟩
  · rw [hdict]
    exact h.dict.mono hbrk
  · rw [hclients]
    exact h.clients.mono hbrk

theorem Inv.announces (h : Inv a) (hs' : Announces a.ivy s') : Inv (a.put s') := by
  refine ⟨hs'.wf h.wf, fun clnt hclnt => h.nodes clnt (hs'.clients_eq ▸ hclnt), fun r p hp => ?_⟩
  obtain ⟨hclients, hdict, -, -⟩ := hs'
  · change p ∈ s'.listed r at hp
    rw [Ivy.listed, hdict] at hp
    exact h.listed r p hp

theorem mem_sentTo {os : List Output} : c ∈ sentTo os ↔ ∃ bytes, .send c bytes ∈ os := by
  rw [sentTo, List.mem_filterMap]
  constructor
  · rintro ⟨o, ho, heq⟩
    cases o with
    | send d bytes => exact ⟨bytes, Option.some.inj heq ▸ ho⟩
    | close d => cases heq
    | connected d => cases heq
    | bind d id r event => cases heq
  · rintro ⟨bytes, hmem⟩
    exact ⟨_, hmem, rfl⟩

theorem Inv.announces_toClients (h : Inv a) (hs' : Announces a.ivy s') :
    ∀ c ∈ sentTo (news a.ivy s'), c ∈ a.clients := by
  intro c hc
  obtain ⟨bytes, hout⟩ := hs'.outputs_eq
  rw [news, hout, List.drop_left] at hc
  obtain ⟨_, hmem⟩ := mem_sentTo.mp hc
  obtain ⟨clnt, hclnt, heq⟩ := List.mem_map.mp hmem
  injection heq with hclient
  exact hclient ▸ h.nodes clnt hclnt

theorem ivySendMsg_extends (engine : Engine Code) (s : Ivy Code) (message : Str) :
    ∃ os, (ivySendMsg engine s message).1 = s.extend os ∧ os ⊆ sendLines engine s message := by
  cases h : s.debugBinaryMsg && ivyCheckBuffer message with
  | true =>
    refine ⟨[], ?_, List.nil_subset _⟩
    rw [ivySendMsg, if_pos h, extend_nil]
  | false => exact ⟨_, congrArg Prod.fst (ivySendMsg_eq engine h), List.Subset.refl _⟩

theorem Inv.send_toClients (h : Inv a) (message : Str) :
    ∀ c ∈ sentTo (news a.ivy (ivySendMsg engine a.ivy message).1), c ∈ a.clients := by
  intro c hc
  obtain ⟨os, hos, hsub⟩ := ivySendMsg_extends engine a.ivy message
  rw [news, hos, extend, List.drop_left] at hc
  obtain ⟨bytes, hmem⟩ := mem_sentTo.mp hc
  obtain ⟨e, he, hline⟩ := List.mem_flatMap.mp (hsub hmem)
  obtain ⟨groups, clnt, hclnt, heq⟩ := mem_callLines hline
  injection heq with hclient
  exact hclient ▸ h.clean.subscribers e he clnt hclnt

theorem Inv.send (h : Inv a) (message : Str) :
    Inv (a.put (ivySendMsg engine a.ivy message).1) := by
  obtain ⟨os, hos, -⟩ := ivySendMsg_extends engine a.ivy message
  rw [hos]
  exact ⟨⟨h.wf.dict, h.wf.clients⟩, h.nodes, h.listed⟩

theorem Inv.join (h : Inv a) (hc : c ∉ a.clients) (info : SocketInfo) (appname : Str) :
    Inv ((a.open c info).put (Ivy.sendService engine (a.open c info).ivy c appname)) :=
  (h.open c info).sendService List.mem_cons_self (h.findClient_none hc) appname

theorem Inv.next (h : Inv a) {e : Event} (ha' : next engine a e = some a') : Inv a' := by
  cases e with
  | connect c info appname =>
    refine preserved_unless h ha' fun hc ha' => ?_
    rw [← Option.some.inj ha']
    exact h.join hc info appname
  | accept c info appname =>
    refine preserved_unless h ha' fun hc ha' => ?_
    rw [← Option.some.inj ha', clientCreate]
    split
    · have hopened := h.open c info
      exact ⟨hopened.wf.emit _, hopened.nodes, hopened.listed⟩
    · exact h.join hc info appname
  | line c bytes =>
    refine preserved_when h ha' fun _ ha' => ?_
    obtain ⟨s', hs', rfl⟩ := Option.map_eq_some_iff.mp ha'
    exact h.line hs'
  | hangUp c =>
    rw [← Option.some.inj ha']
    exact ⟨h.wf, h.nodes, h.listed⟩
  | delete c ids => exact preserved_when h ha' fun _ => h.delete
  | bind regexp =>
    obtain ⟨s', hs', rfl⟩ := Option.map_eq_some_iff.mp ha'
    exact h.announces (announces_bind hs')
  | unbind addr =>
    obtain ⟨s', hs', rfl⟩ := Option.map_eq_some_iff.mp ha'
    exact h.announces (announces_unbind hs')
  | change addr regexp =>
    obtain ⟨s', hs', rfl⟩ := Option.map_eq_some_iff.mp ha'
    exact h.announces (announces_change hs')
  | send message =>
    rw [← Option.some.inj ha']
    exact h.send message

theorem Inv.notWritten (h : Inv a) (engine : Engine Code) (e : Event) : NotWritten engine a e := by
  cases e with
  | delete c ids =>
    intro hc hmark
    obtain ⟨t, ht, -⟩ := h.wf.delOneClientReading ids c
    rw [Handles.next, if_pos ⟨hc, hmark⟩, deleteSocket, ht]
    exact ⟨_, rfl, fun hmem => of_decide_eq_true (List.mem_filter.mp hmem).2 rfl⟩
  | bind regexp =>
    intro a' ha'
    obtain ⟨s', hs', rfl⟩ := Option.map_eq_some_iff.mp ha'
    exact h.announces_toClients (announces_bind hs')
  | unbind addr =>
    intro a' ha'
    obtain ⟨s', hs', rfl⟩ := Option.map_eq_some_iff.mp ha'
    exact h.announces_toClients (announces_unbind hs')
  | change addr regexp =>
    intro a' ha'
    obtain ⟨s', hs', rfl⟩ := Option.map_eq_some_iff.mp ha'
    exact h.announces_toClients (announces_change hs')
  | send message =>
    intro a' ha'
    rw [← Option.some.inj ha']
    exact h.send_toClients message
  | connect c info appname => trivial
  | accept c info appname => trivial
  | line c bytes => trivial
  | hangUp c => trivial

end Steps

theorem inv_alone (s : Ivy Code) : Inv (alone s) :=
  ⟨⟨⟨List.nodup_nil, nofun⟩, ⟨List.nodup_nil, nofun⟩⟩, nofun, fun _ => nofun⟩

/-- In any run, a deleted handle is in no list, and is never written to. -/
theorem deleted_not_written (engine : Engine Code) (s : Ivy Code) (es : List Event) :
    Along (next engine) (NotWritten engine) (alone s) es ∧
      ∀ a, run (next engine) (alone s) es = some a → Clean a := by
  obtain ⟨halong, hrun⟩ := along_invariant (fun _ _ _ h ha' => Inv.next h ha')
    (fun _ e h => Inv.notWritten h engine e) (inv_alone s) es
  exact ⟨halong, fun a ha => (hrun a ha).clean⟩

end IvyBus.Handles
