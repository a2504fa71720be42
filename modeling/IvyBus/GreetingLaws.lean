import IvyBus.Agents
import IvyBus.Greeting

namespace IvyBus.Greeting

open Lib Ivy Network

variable {Code : Type}

def Line.note (line : Line) : Note Int32 Str :=
  match line.msgtype with
  | .addRegexp => .put line.id line.message
  | .delRegexp => .drop line.id
  | _ => .skip

def Line.bytes (line : Line) : Str := msgText line.msgtype line.id line.message

/-- The bindings that the peer knows from the lines, applied in order. -/
def announced (lines : List Line) : List (Int32 × Str) := replay [] (lines.map Line.note)

/-- Once `SendService` has returned, the peer knows of each id what `msg_recv` has for it; the
walk has read no node that was freed. -/
def Announced (g : Service Code) : Prop :=
  g.phase ≠ .stale ∧ (g.phase = .done → Alike (announced g.lines) (bindings g.ivy))

def Service.ahead (g : Service Code) : List MsgRcv :=
  match g.phase with
  | .opening => g.ivy.msgRecv
  | .walking addr => (g.ivy.msgRecv.dropWhile (·.addr ≠ addr)).tail
  | _ => []

/-- The calls that the announcement takes up: a binding is made before it has begun, removed or
changed while it is still ahead; and all calls once the client is in `allClients`. -/
def Harmless (g : Service Code) : Event → Prop
  | .proceed => True
  | .ivyBindMsg _ => g.phase = .opening ∨ g.phase = .done
  | .ivyUnbindMsg addr => addr ∈ g.ahead.map MsgRcv.addr ∨ g.phase = .done
  | .ivyChangeMsg addr regexp => addr ∈ g.ahead.map MsgRcv.addr ∨ g.phase = .done ∨
      (g.ivy.msgRecv.find? (·.addr = addr)).map MsgRcv.regexp = some regexp

instance (g : Service Code) : DecidablePred (Harmless g) :=
  fun e => by cases e <;> unfold Harmless <;> infer_instance

/-- No call comes from the callbacks. -/
def Quiet (events : List Event) : Prop := ∀ e ∈ events, e = .proceed

/-- The nodes of `msg_recv` are allocated, and their ids come from the counter. -/
structure WellBound (s : Ivy Code) : Prop where
  nodes : Fresh s.brk (s.msgRecv.map MsgRcv.addr)
  ids : ((bindings s).map Prod.fst).Nodup
  below : ∀ i ∈ (bindings s).map Prod.fst, i.toInt < s.recvId.toInt

def pairs (l : List MsgRcv) : List (Int32 × Str) := l.map fun msg => (msg.id, msg.regexp)

theorem wellBound_of_agentOk {engine : Engine Code} {s : Ivy Code} (h : AgentOk engine s) :
    WellBound s :=
  ⟨h.nodes, h.ids, h.below⟩

section Calls

variable {s s' : Ivy Code} {pre post : List MsgRcv} {msg : MsgRcv}

structure Rebound (s s' : Ivy Code) (line : Line) : Prop where
  wf : WellBound s'
  clients_eq : s'.allClients = s.allClients
  sends : s'.outputs = s.outputs ++ s.allClients.map fun clnt => .send clnt.client line.bytes
  alike : Alike (line.note.apply (bindings s)) (bindings s')

theorem WellBound.notMem (h : WellBound s) (hs : s.msgRecv = pre ++ msg :: post) :
    msg.addr ∉ pre.map MsgRcv.addr := by
  have haddr := h.nodes.1
  rw [hs, List.map_append, List.nodup_append] at haddr
  exact fun hin => haddr.2.2 _ hin _ List.mem_cons_self rfl

theorem WellBound.find? (h : WellBound s) (hs : s.msgRecv = pre ++ msg :: post) :
    s.msgRecv.find? (·.addr = msg.addr) = some msg :=
  find?_cell h.nodes.1 (hs ▸ List.mem_append_right _ List.mem_cons_self)

theorem WellBound.ivyBindMsg (h : WellBound s) {r : Str} (hs' : s.ivyBindMsg r = some s') :
    Rebound s s' ⟨.addRegexp, s.recvId, r⟩ ∧ s'.msgRecv = ⟨s.brk, s.recvId, r⟩ :: s.msgRecv := by
  rw [Ivy.ivyBindMsg] at hs'
  by_cases hmax : s.recvId = Int32.maxValue
  · rw [if_pos hmax] at hs'
    cases hs'
  rw [if_neg hmax, msgSendToAll, foldl_msgSendToAll] at hs'
  obtain rfl := Option.some.inj hs'
  have hsucc := toInt_succ hmax
  have hlt : s.recvId.toInt < (s.recvId + 1).toInt := by omega
  refine ⟨⟨⟨h.nodes.cons, ?_, ?_⟩, rfl, rfl, fun _ => rfl⟩, rfl⟩
  · exact List.nodup_cons.mpr ⟨fun hin => Int.lt_irrefl _ (h.below _ hin), h.ids⟩
  · intro i hi
    rcases List.mem_cons.mp hi with rfl | hi
    · exact hlt
    · exact Int.lt_trans (h.below i hi) hlt

theorem WellBound.ivyUnbindMsg (h : WellBound s) (hs : s.msgRecv = pre ++ msg :: post)
    (hs' : s.ivyUnbindMsg msg.addr = some s') :
    Rebound s s' ⟨.delRegexp, msg.id, []⟩ ∧ s'.msgRecv = pre ++ post := by
  have hrest : unlink MsgRcv.addr msg.addr s.msgRecv = pre ++ post := by
    rw [hs, unlink_cell (h.notMem hs)]
  have hsub : (pre ++ post).Sublist s.msgRecv := by
    rw [hs]
    exact (List.sublist_cons_self ..).append_left _
  have hfilter : (bindings s).filter (·.1 ≠ msg.id) = pairs (pre ++ post) := by
    have hids := h.ids
    rw [bindings, hs] at hids ⊢
    exact filter_binding hids
  rw [Ivy.ivyUnbindMsg, h.find? hs, Option.map_some, msgSendToAll, foldl_msgSendToAll,
    hrest] at hs'
  obtain rfl := Option.some.inj hs'
  refine ⟨⟨⟨h.nodes.sublist (hsub.map _), ?_, ?_⟩, rfl, rfl, fun i => ?_⟩, rfl⟩
  · exact h.ids.sublist ((hsub.map _).map _)
  · exact fun i hi => h.below i (((hsub.map _).map _).subset hi)
  · exact congrArg (List.lookup i) hfilter

theorem WellBound.ivyChangeMsg (h : WellBound s) (hs : s.msgRecv = pre ++ msg :: post) {r : Str}
    (hs' : s.ivyChangeMsg msg.addr r = some s') :
    Rebound s s' ⟨.addRegexp, msg.id, r⟩ ∧
      s'.msgRecv = pre ++ { msg with regexp := r } :: post := by
  have hmsgs : (s.msgRecv.map fun rcv =>
      if rcv.addr = msg.addr then { rcv with regexp := r } else rcv) =
        pre ++ { msg with regexp := r } :: post := by
    have haddr := h.nodes.1
    rw [hs] at haddr ⊢
    exact update_cell haddr fun rcv => { rcv with regexp := r }
  have hpairs : ((bindings s).map fun p => if p.1 = msg.id then (p.1, r) else p) =
      pairs (pre ++ { msg with regexp := r } :: post) := by
    have hids := h.ids
    rw [bindings, hs, List.map_append, List.map_cons] at hids
    have hcell := update_cell hids fun p => (p.1, r)
    rw [bindings, hs, pairs]
    simpa only [List.map_append, List.map_cons] using hcell
  have haddrs : (pre ++ { msg with regexp := r } :: post).map MsgRcv.addr =
      s.msgRecv.map MsgRcv.addr := by
    rw [hs, List.map_append, List.map_append]
    rfl
  have hnames : (pairs (pre ++ { msg with regexp := r } :: post)).map Prod.fst =
      (bindings s).map Prod.fst := by
    rw [bindings, hs, pairs, List.map_map, List.map_map, List.map_append, List.map_append]
    rfl
  have hin : msg.id ∈ (bindings s).map Prod.fst := by
    rw [bindings, hs, List.map_map]
    exact List.mem_map_of_mem (f := Prod.fst ∘ fun msg : MsgRcv => (msg.id, msg.regexp))
      (List.mem_append_right _ List.mem_cons_self)
  rw [Ivy.ivyChangeMsg, h.find? hs, Option.map_some, hmsgs, msgSendToAll,
    foldl_msgSendToAll] at hs'
  obtain rfl := Option.some.inj hs'
  refine ⟨⟨⟨?_, ?_, fun i hi => h.below i (hnames ▸ hi)⟩, rfl, rfl, fun i => ?_⟩, rfl⟩
  · exact haddrs.symm ▸ h.nodes
  · exact hnames.symm ▸ h.ids
  · exact (alike_put_update hin r i).trans (congrArg (List.lookup i) hpairs)

end Calls

/-- What of `msg_recv` has been announced, and what is still to come. -/
inductive Cut : Phase → List MsgRcv → List MsgRcv → Prop
  | opening (ahead : List MsgRcv) : Cut .opening [] ahead
  | walking (behind : List MsgRcv) (msg : MsgRcv) (ahead : List MsgRcv) :
      Cut (.walking msg.addr) (behind ++ [msg]) ahead
  | closing (behind : List MsgRcv) : Cut .closing behind []
  | done (behind : List MsgRcv) : Cut .done behind []

structure Inv (before : Str) (g : Service Code) (behind ahead : List MsgRcv) : Prop where
  wf : WellBound g.ivy
  ready : g.clnt.readyToSend = 0
  linked : (g.ivy.allClients.map IvyClient.client).count g.clnt.client =
    if g.phase = .done then 1 else 0
  split : g.ivy.msgRecv = behind ++ ahead
  cut : Cut g.phase behind ahead
  told : Alike (announced g.lines) (pairs behind)
  sent : bytesTo g.clnt.client g.ivy.outputs = before ++ g.lines.flatMap Line.bytes

section Run

variable {engine : Engine Code} {g g' : Service Code} {s : Ivy Code} {line : Line}
  {before : Str} {behind ahead : List MsgRcv} {msg : MsgRcv}

theorem announced_concat (lines : List Line) (line : Line) :
    announced (lines ++ [line]) = line.note.apply (announced lines) := by
  rw [announced, List.map_append, replay_append]
  rfl

theorem WellBound.walk (h : WellBound s) (hs : s.msgRecv = behind ++ [msg] ++ ahead) :
    s.msgRecv.dropWhile (·.addr ≠ msg.addr) = msg :: ahead := by
  rw [List.append_assoc] at hs
  rw [hs, List.singleton_append, dropWhile_cell (h.notMem hs)]

theorem Inv.ahead_eq (h : Inv before g behind ahead) : g.ahead = ahead := by
  obtain ⟨ivy, clnt, phase, lines⟩ := g
  obtain ⟨hwf, -, -, hsplit, hcut, -, -⟩ := h
  dsimp only at hwf hsplit hcut
  cases hcut with
  | opening => exact hsplit
  | walking pre msg =>
    rw [Service.ahead]
    dsimp only
    rw [hwf.walk hsplit]
    rfl
  | closing => rfl
  | done => rfl

theorem sent_msgSendTo
    (h : bytesTo g.clnt.client g.ivy.outputs = before ++ g.lines.flatMap Line.bytes)
    (msgtype : MsgType) (id : Int32) (message : Str) :
    bytesTo g.clnt.client (g.msgSendTo msgtype id message).ivy.outputs =
      before ++ (g.msgSendTo msgtype id message).lines.flatMap Line.bytes := by
  refine (bytesTo_append ..).trans ?_
  rw [h, Service.msgSendTo, List.flatMap_append, ← List.append_assoc]
  simp [bytesTo, Line.bytes]

theorem Inv.visit (h : Inv before g behind ahead) (hphase : g.phase ≠ .done) :
    ∃ behind' ahead', Inv before (g.visit ahead) behind' ahead' := by
  have hlinked := h.linked
  rw [if_neg hphase] at hlinked
  cases ahead with
  | nil =>
    refine ⟨behind, [], ⟨⟨h.wf.nodes, h.wf.ids, h.wf.below⟩, h.ready, hlinked, h.split,
      .closing behind, ?_, sent_msgSendTo h.sent ..⟩⟩
    exact (announced_concat ..).symm ▸ h.told
  | cons msg ahead =>
    refine ⟨behind ++ [msg], ahead, ⟨⟨h.wf.nodes, h.wf.ids, h.wf.below⟩, h.ready, hlinked, ?_,
      .walking behind msg ahead, ?_, sent_msgSendTo h.sent ..⟩⟩
    · exact h.split.trans (by simp)
    · have hnew : msg.id ∉ (pairs behind).map Prod.fst := by
        have hids := h.wf.ids
        rw [bindings, h.split, List.map_append, List.map_append, List.nodup_append] at hids
        exact fun hin => hids.2.2 _ hin _ List.mem_cons_self rfl
      have htold := (h.told.apply (.put msg.id msg.regexp)).trans (alike_put_last hnew msg.regexp)
      rw [pairs, List.map_append]
      exact (announced_concat ..).symm ▸ htold

theorem Inv.proceed (h : Inv before g behind ahead) :
    ∃ behind' ahead', Inv before (g.proceed engine) behind' ahead' := by
  obtain ⟨ivy, clnt, phase, lines⟩ := g
  have hcut := h.cut
  dsimp only at hcut
  cases hcut with
  | opening =>
    have hsplit : ivy.msgRecv = ahead := h.split
    rw [Service.proceed]
    dsimp only
    rw [hsplit]
    exact h.visit nofun
  | walking pre msg =>
    rw [Service.proceed]
    dsimp only
    rw [h.wf.walk h.split]
    exact h.visit nofun
  | closing =>
    have hlinked := h.linked
    rw [if_neg nofun, List.count_eq_zero] at hlinked
    have hnew : ivy.findClient clnt.client = none := by
      rw [← Option.not_isSome_iff_eq_none, findClient_isSome]
      exact hlinked
    rw [Service.proceed]
    dsimp only
    rw [announceReady_new engine hnew h.ready]
    refine ⟨behind, [], ⟨⟨h.wf.nodes, h.wf.ids, h.wf.below⟩, h.ready, ?_, h.split, .done behind,
      h.told, h.sent⟩⟩
    rw [if_pos rfl, List.map_cons, List.count_cons_self, List.count_eq_zero_of_not_mem hlinked]
  | done => exact ⟨behind, [], h⟩

theorem Inv.tell (h : Inv before g behind ahead) (hs : Rebound g.ivy s line)
    {behind' ahead' : List MsgRcv} (hsplit : s.msgRecv = behind' ++ ahead') (hcut : Cut g.phase behind' ahead')
    (hpairs : g.phase ≠ .done → pairs behind' = pairs behind) :
    Inv before (g.tell s line) behind' ahead' := by
  refine ⟨hs.wf, h.ready, ?_, hsplit, hcut, ?_, ?_⟩
  · exact (congrArg (fun l : List IvyClient => (l.map IvyClient.client).count g.clnt.client)
      hs.clients_eq).trans h.linked
  · rw [Service.tell, hs.clients_eq, h.linked]
    by_cases hphase : g.phase = .done
    · have hcut₀ := h.cut
      rw [hphase] at hcut hcut₀
      cases hcut
      cases hcut₀
      have hall : pairs behind = bindings g.ivy := by
        rw [bindings, h.split, List.append_nil]
        rfl
      have hall' : bindings s = pairs behind' := by
        rw [bindings, hsplit, List.append_nil]
        rfl
      rw [if_pos hphase, List.replicate_one, announced_concat, ← hall']
      exact (h.told.apply line.note).trans (hall ▸ hs.alike)
    · rw [if_neg hphase, List.replicate_zero, List.append_nil, hpairs hphase]
      exact h.told
  · change bytesTo g.clnt.client s.outputs =
      before ++ (g.lines ++ List.replicate _ line).flatMap Line.bytes
    rw [hs.sends, bytesTo_append, bytesTo_count, h.sent, hs.clients_eq, List.flatMap_append,
      List.append_assoc, List.flatMap_replicate]

theorem Cut.rest {phase : Phase} (h : Cut phase behind (msg :: ahead)) (rest : List MsgRcv) :
    Cut phase behind rest := by
  cases h with
  | opening => exact .opening rest
  | walking pre cell => exact .walking pre cell rest

theorem Cut.of_nil {phase : Phase} (h : Cut phase behind ahead) (hbehind : behind = []) :
    phase = .opening ∨ ahead = [] := by
  cases h with
  | opening => exact .inl rfl
  | walking pre msg => exact absurd hbehind (List.append_ne_nil_of_right_ne_nil _ nofun)
  | closing => exact .inr rfl
  | done => exact .inr rfl

theorem WellBound.cell (h : WellBound s) (hs : s.msgRecv = behind ++ ahead) {addr : Nat}
    (hfind : s.msgRecv.find? (·.addr = addr) = some msg) (hin : addr ∈ ahead.map MsgRcv.addr) :
    msg.addr = addr ∧ ∃ pre post, ahead = pre ++ msg :: post := by
  obtain ⟨cell, hcell, rfl⟩ := List.mem_map.mp hin
  have hfound := find?_cell h.nodes.1 (hs ▸ List.mem_append_right behind hcell)
  obtain rfl := Option.some.inj (hfind.symm.trans hfound)
  exact ⟨rfl, List.append_of_mem hcell⟩

theorem Inv.ivyBindMsg (h : Inv before g behind ahead) {r : Str}
    (hok : Harmless g (.ivyBindMsg r)) (hs : g.ivy.ivyBindMsg r = some s) :
    ∃ behind' ahead', Inv before (g.tell s ⟨.addRegexp, g.ivy.recvId, r⟩) behind' ahead' := by
  obtain ⟨hrebound, hmsgs⟩ := h.wf.ivyBindMsg hs
  rw [h.split] at hmsgs
  have hcut := h.cut
  rcases hok with hphase | hphase
  · rw [hphase] at hcut
    cases hcut
    exact ⟨[], _, h.tell hrebound hmsgs (hphase ▸ .opening _) fun _ => rfl⟩
  · rw [hphase] at hcut
    cases hcut
    exact ⟨_ :: behind, [], h.tell hrebound hmsgs (hphase ▸ .done _) (absurd hphase)⟩

theorem Inv.located (h : Inv before g behind ahead) {addr : Nat}
    (hfind : g.ivy.msgRecv.find? (·.addr = addr) = some msg)
    (hok : addr ∈ g.ahead.map MsgRcv.addr ∨ g.phase = .done) :
    msg.addr = addr ∧ ∃ pre post, g.ivy.msgRecv = pre ++ msg :: post ∧
      ∀ mid, ∃ behind' ahead', pre ++ (mid ++ post) = behind' ++ ahead' ∧
        Cut g.phase behind' ahead' ∧ (g.phase ≠ .done → pairs behind' = pairs behind) := by
  rcases hok with hin | hphase
  · rw [h.ahead_eq] at hin
    obtain ⟨haddr, pre, post, rfl⟩ := h.wf.cell h.split hfind hin
    refine ⟨haddr, behind ++ pre, post, by rw [h.split, List.append_assoc], fun mid => ?_⟩
    have hcut := h.cut
    refine ⟨behind, pre ++ (mid ++ post), List.append_assoc .., ?_, fun _ => rfl⟩
    cases pre with
    | nil => exact hcut.rest _
    | cons cell pre => exact hcut.rest _
  · have hmem := List.mem_of_find?_eq_some hfind
    have haddr : msg.addr = addr := by simpa using List.find?_some hfind
    obtain ⟨pre, post, hs⟩ := List.append_of_mem hmem
    exact ⟨haddr, pre, post, hs, fun mid => ⟨_, [], (List.append_nil _).symm, hphase ▸ .done _,
      absurd hphase⟩⟩

theorem Inv.ivyUnbindMsg (h : Inv before g behind ahead) {addr : Nat}
    (hok : Harmless g (.ivyUnbindMsg addr)) (hfind : g.ivy.msgRecv.find? (·.addr = addr) = some msg)
    (hs : g.ivy.ivyUnbindMsg addr = some s) :
    ∃ behind' ahead', Inv before (g.tell s ⟨.delRegexp, msg.id, []⟩) behind' ahead' := by
  obtain ⟨rfl, pre, post, hsplit, hreplace⟩ := h.located hfind hok
  obtain ⟨hrebound, hmsgs⟩ := h.wf.ivyUnbindMsg hsplit hs
  obtain ⟨behind', ahead', hsplit', hcut, hpairs⟩ := hreplace []
  exact ⟨behind', ahead', h.tell hrebound (hmsgs.trans hsplit') hcut hpairs⟩

theorem Inv.ivyChangeMsg (h : Inv before g behind ahead) {addr : Nat} {r : Str}
    (hok : Harmless g (.ivyChangeMsg addr r))
    (hfind : g.ivy.msgRecv.find? (·.addr = addr) = some msg)
    (hs : g.ivy.ivyChangeMsg addr r = some s) :
    ∃ behind' ahead', Inv before (g.tell s ⟨.addRegexp, msg.id, r⟩) behind' ahead' := by
  rw [Harmless, ← or_assoc] at hok
  rcases hok with hok | hsame
  · obtain ⟨rfl, pre, post, hsplit, hreplace⟩ := h.located hfind hok
    obtain ⟨hrebound, hmsgs⟩ := h.wf.ivyChangeMsg hsplit hs
    obtain ⟨behind', ahead', hsplit', hcut, hpairs⟩ := hreplace [{ msg with regexp := r }]
    exact ⟨behind', ahead', h.tell hrebound (hmsgs.trans hsplit') hcut hpairs⟩
  · -- the regexp is the one that the node has
    rw [hfind] at hsame
    obtain rfl : msg.regexp = r := Option.some.inj hsame
    obtain rfl : msg.addr = addr := by simpa using List.find?_some hfind
    obtain ⟨pre, post, hsplit⟩ := List.append_of_mem (List.mem_of_find?_eq_some hfind)
    obtain ⟨hrebound, hmsgs⟩ := h.wf.ivyChangeMsg hsplit hs
    exact ⟨behind, ahead, h.tell hrebound (hmsgs.trans (hsplit.symm.trans h.split)) h.cut
      fun _ => rfl⟩

def Kept (before : Str) (g : Service Code) : Prop := ∃ behind ahead, Inv before g behind ahead

theorem Kept.step {e : Event} (h : Kept before g) (hok : Harmless g e)
    (hg' : next engine g e = some g') : Kept before g' := by
  obtain ⟨behind, ahead, h⟩ := h
  cases e with
  | proceed => exact Option.some.inj hg' ▸ h.proceed
  | ivyBindMsg r =>
    obtain ⟨s, hs, rfl⟩ := Option.map_eq_some_iff.mp hg'
    exact h.ivyBindMsg hok hs
  | ivyUnbindMsg addr =>
    obtain ⟨msg, hfind, hcall⟩ := Option.bind_eq_some_iff.mp hg'
    obtain ⟨s, hs, rfl⟩ := Option.map_eq_some_iff.mp hcall
    exact h.ivyUnbindMsg hok hfind hs
  | ivyChangeMsg addr r =>
    obtain ⟨msg, hfind, hcall⟩ := Option.bind_eq_some_iff.mp hg'
    obtain ⟨s, hs, rfl⟩ := Option.map_eq_some_iff.mp hcall
    exact h.ivyChangeMsg hok hfind hs

theorem Inv.silent (h : Inv before g behind ahead) {behind' ahead' : List MsgRcv}
    (hs : Rebound g.ivy s line) (h' : Inv before (g.tell s line) behind' ahead')
    (hphase : g.phase ≠ .done) : Alike (pairs behind) (pairs behind') := by
  have htold := h'.told
  rw [Service.tell, hs.clients_eq, h.linked, if_neg hphase, List.replicate_zero,
    List.append_nil] at htold
  exact fun i => (h.told i).symm.trans (htold i)

theorem Inv.bindings_eq (h : Inv before g behind ahead) :
    bindings g.ivy = pairs behind ++ pairs ahead := by
  rw [bindings, h.split, List.map_append]
  rfl

theorem Inv.announced_stays (h : Inv before g behind ahead) {behind' ahead' : List MsgRcv}
    (hs : Rebound g.ivy s line) (h' : Inv before (g.tell s line) behind' ahead')
    (hphase : g.phase ≠ .done) (hmsg : msg ∈ g.ivy.msgRecv) (hahead : msg ∉ ahead) :
    (bindings s).lookup msg.id = some msg.regexp := by
  rw [h.split, List.mem_append] at hmsg
  have hids := h.wf.ids
  rw [h.bindings_eq, List.map_append, List.nodup_append] at hids
  have hbehind : (pairs behind).lookup msg.id = some msg.regexp :=
    lookup_mem hids.1 (List.mem_map_of_mem (hmsg.resolve_right hahead))
  rw [h.silent hs h' hphase] at hbehind
  have hsplit : bindings s = pairs behind' ++ pairs ahead' := h'.bindings_eq
  rw [hsplit, List.lookup_append, hbehind]
  rfl

theorem Kept.harmless {e : Event} (h : Kept before g) (hg' : next engine g e = some g')
    (h' : Kept before g') : Harmless g e := by
  obtain ⟨behind, ahead, h⟩ := h
  obtain ⟨behind', ahead', h'⟩ := h'
  have hin : ∀ {msg : MsgRcv}, msg ∈ ahead → msg.addr ∈ g.ahead.map MsgRcv.addr := fun hmsg =>
    h.ahead_eq.symm ▸ List.mem_map_of_mem hmsg
  by_cases hphase : g.phase = .done
  · cases e with
    | proceed => trivial
    | ivyBindMsg r => exact .inr hphase
    | ivyUnbindMsg addr => exact .inr hphase
    | ivyChangeMsg addr r => exact .inr (.inl hphase)
  cases e with
  | proceed => trivial
  | ivyBindMsg r =>
    obtain ⟨s, hs, rfl⟩ := Option.map_eq_some_iff.mp hg'
    obtain ⟨hrebound, hmsgs⟩ := h.wf.ivyBindMsg hs
    have hnew : g.ivy.recvId ∉ (pairs behind).map Prod.fst := by
      refine fun hin => Int.lt_irrefl _ (h.wf.below _ ?_)
      rw [h.bindings_eq, List.map_append]
      exact List.mem_append_left _ hin
    have hsilent := h.silent hrebound h' hphase g.ivy.recvId
    rw [lookup_notMem hnew] at hsilent
    have hsplit : ⟨g.ivy.brk, g.ivy.recvId, r⟩ :: g.ivy.msgRecv = behind' ++ ahead' :=
      hmsgs.symm.trans h'.split
    cases behind' with
    | nil =>
      have hcut : Cut g.phase [] ahead' := h'.cut
      rcases hcut.of_nil rfl with hopening | rfl
      · exact .inl hopening
      · cases hsplit
    | cons cell rest =>
      obtain ⟨rfl, -⟩ := List.cons.inj hsplit
      rw [pairs, List.map_cons, lookup_pair, if_pos rfl] at hsilent
      cases hsilent
  | ivyUnbindMsg addr =>
    obtain ⟨msg, hfind, hcall⟩ := Option.bind_eq_some_iff.mp hg'
    obtain ⟨s, hs, rfl⟩ := Option.map_eq_some_iff.mp hcall
    have hmsg := List.mem_of_find?_eq_some hfind
    obtain rfl : msg.addr = addr := by simpa using List.find?_some hfind
    obtain ⟨pre, post, hsplit⟩ := List.append_of_mem hmsg
    obtain ⟨hrebound, -⟩ := h.wf.ivyUnbindMsg hsplit hs
    refine .inl (hin ?_)
    by_contra hahead
    have hstays := h.announced_stays hrebound h' hphase hmsg hahead
    rw [← hrebound.alike msg.id] at hstays
    have hgone := lookup_drop (l := bindings g.ivy) msg.id msg.id
    rw [if_pos rfl] at hgone
    cases hgone.symm.trans hstays
  | ivyChangeMsg addr r =>
    obtain ⟨msg, hfind, hcall⟩ := Option.bind_eq_some_iff.mp hg'
    obtain ⟨s, hs, rfl⟩ := Option.map_eq_some_iff.mp hcall
    have hmsg := List.mem_of_find?_eq_some hfind
    obtain rfl : msg.addr = addr := by simpa using List.find?_some hfind
    obtain ⟨pre, post, hsplit⟩ := List.append_of_mem hmsg
    obtain ⟨hrebound, -⟩ := h.wf.ivyChangeMsg hsplit hs
    by_cases hahead : msg ∈ ahead
    · exact .inl (hin hahead)
    · have hstays := h.announced_stays hrebound h' hphase hmsg hahead
      rw [← hrebound.alike msg.id, Line.note, Note.apply, lookup_pair, if_pos rfl] at hstays
      exact .inr (.inr (by rw [hfind, Option.map_some, hstays]))

/-- The announcement stays on its way in the harmless steps, and in no others. -/
theorem kept_iff {e : Event} (h : Kept before g) (hg' : next engine g e = some g') :
    Kept before g' ↔ Harmless g e :=
  ⟨fun h' => h.harmless hg' h', fun hok => h.step hok hg'⟩

theorem Kept.announced (h : Kept before g) : Announced g := by
  obtain ⟨behind, ahead, h⟩ := h
  refine ⟨fun hphase => ?_, fun hphase => ?_⟩
  · have hcut := h.cut
    rw [hphase] at hcut
    cases hcut
  · have hcut := h.cut
    rw [hphase] at hcut
    cases hcut
    rw [bindings, h.split, List.append_nil]
    exact h.told

theorem kept_start (h : WellBound s) {c : Handle} (hnew : s.findClient c = none) (appname : Str) :
    Kept (bytesTo c s.outputs) (start s c appname) := by
  refine ⟨[], s.msgRecv, ⟨⟨h.nodes.mono (Nat.le_succ _), h.ids, h.below⟩, rfl, ?_, rfl,
    .opening _, fun _ => rfl, ?_⟩⟩
  · rw [if_neg nofun, List.count_eq_zero]
    refine fun hin => ?_
    have hfound : (s.findClient c).isSome := findClient_isSome.mpr hin
    rw [hnew] at hfound
    cases hfound
  · exact @sent_msgSendTo Code ⟨{ s with brk := s.brk + 1 },
      ⟨s.brk, c, appname, 0, 0, [], 0, false⟩, .opening, []⟩ _ (List.append_nil _).symm ..

theorem next_clnt {e : Event} (hg' : next engine g e = some g') : g'.clnt = g.clnt := by
  cases e with
  | proceed =>
    obtain rfl := Option.some.inj hg'
    have hvisit : ∀ l, (g.visit l).clnt = g.clnt := fun l => by cases l <;> rfl
    rw [Service.proceed]
    split
    · exact hvisit _
    · split
      · rfl
      · exact hvisit _
    · rfl
    · rfl
    · rfl
  | ivyBindMsg r =>
    obtain ⟨s, -, rfl⟩ := Option.map_eq_some_iff.mp hg'
    rfl
  | ivyUnbindMsg addr =>
    obtain ⟨msg, -, hcall⟩ := Option.bind_eq_some_iff.mp hg'
    obtain ⟨s, -, rfl⟩ := Option.map_eq_some_iff.mp hcall
    rfl
  | ivyChangeMsg addr r =>
    obtain ⟨msg, -, hcall⟩ := Option.bind_eq_some_iff.mp hg'
    obtain ⟨s, -, rfl⟩ := Option.map_eq_some_iff.mp hcall
    rfl

/-- When the application calls back only for what the announcement takes up, the peer knows all
bindings in the end. -/
theorem greeting_announces (engine : Engine Code) (h : WellBound s) {c : Handle}
    (hnew : s.findClient c = none) (appname : Str) {events : List Event}
    (hok : Along (next engine) Harmless (start s c appname) events)
    (hrun : run (next engine) (start s c appname) events = some g) :
    Announced g ∧
      bytesTo c g.ivy.outputs = bytesTo c s.outputs ++ g.lines.flatMap Line.bytes := by
  obtain ⟨hkept, hclient⟩ := run_invariant
    (I := fun g => Kept (bytesTo c s.outputs) g ∧ g.clnt.client = c)
    (fun g e g' hg hok hg' => ⟨hg.1.step hok hg', (congrArg _ (next_clnt hg')).trans hg.2⟩)
    ⟨kept_start h hnew appname, rfl⟩ hok hrun
  obtain ⟨behind, ahead, hinv⟩ := id hkept
  exact ⟨hkept.announced, hclient ▸ hinv.sent⟩

theorem run_visit (hwf : WellBound g.ivy) (hs : g.ivy.msgRecv = behind ++ ahead) :
    (run (next engine) (g.visit ahead) (List.replicate (ahead.length + 1) .proceed)).map
        (fun g => (g.phase, g.ivy)) =
      let s := (ahead.foldl (fun s msg =>
        s.msgSendTo g.clnt.client .addRegexp msg.id msg.regexp) g.ivy).msgSendTo g.clnt.client
          .endRegexp 0 []
      some (.done, announceReady engine { s with allClients := g.clnt :: s.allClients }
        g.clnt.client) := by
  induction ahead generalizing g behind with
  | nil => rfl
  | cons msg ahead ih =>
    have hwf' : WellBound (g.msgSendTo .addRegexp msg.id msg.regexp).ivy :=
      ⟨hwf.nodes, hwf.ids, hwf.below⟩
    have hs' : (g.msgSendTo .addRegexp msg.id msg.regexp).ivy.msgRecv =
        behind ++ [msg] ++ ahead := hs.trans (by simp)
    have hnext : (g.visit (msg :: ahead)).proceed engine =
        Service.visit { g.msgSendTo .addRegexp msg.id msg.regexp with
          phase := .walking msg.addr } ahead := by
      rw [Service.visit, Service.proceed]
      dsimp only
      rw [hwf'.walk hs']
    rw [List.length_cons, List.replicate_succ, run, next, Option.bind_some, hnext]
    exact @ih { g.msgSendTo .addRegexp msg.id msg.regexp with phase := .walking msg.addr } _
      hwf' hs'

theorem run_sendService (engine : Engine Code) (h : WellBound s) (c : Handle) (appname : Str) :
    (run (next engine) (start s c appname)
      (List.replicate (s.msgRecv.length + 2) .proceed)).map (fun g => (g.phase, g.ivy)) =
        some (.done, Ivy.sendService engine s c appname) := by
  have hstart : (start s c appname).proceed engine = (start s c appname).visit s.msgRecv := rfl
  rw [List.replicate_succ, run, next, Option.bind_some, hstart]
  have hwf : WellBound (start s c appname).ivy :=
    ⟨h.nodes.mono (Nat.le_succ _), h.ids, h.below⟩
  exact @run_visit Code engine (start s c appname) [] s.msgRecv hwf rfl

theorem run_done (n : Nat) (hphase : g.phase = .done) :
    run (next engine) g (List.replicate n .proceed) = some g := by
  induction n with
  | zero => rfl
  | succ n ih =>
    have hproceed : g.proceed engine = g := by
      rw [Service.proceed, hphase]
    rw [List.replicate_succ, run, next, hproceed, Option.bind_some, ih]

theorem sendService_quiet (engine : Engine Code) (h : WellBound s) (c : Handle) (appname : Str)
    {events : List Event} (hquiet : Quiet events) :
    sendService engine s c appname events = some (Ivy.sendService engine s c appname) := by
  have hevents : events ++ List.replicate (s.msgRecv.length + events.length + 2) .proceed =
      List.replicate (s.msgRecv.length + 2) .proceed ++
        List.replicate (events.length + events.length) .proceed := by
    rw [List.eq_replicate_of_mem hquiet, List.length_replicate, List.replicate_append_replicate,
      List.replicate_append_replicate]
    congr 1
    omega
  obtain ⟨g, hrun, hg⟩ := Option.map_eq_some_iff.mp (run_sendService engine h c appname)
  obtain ⟨hphase, hivy⟩ := Prod.mk.inj hg
  rw [sendService, hevents, run_append, hrun, Option.bind_some, run_done _ hphase,
    Option.bind_some, if_pos hphase, hivy]

theorem clientCreate_quiet (engine : Engine Code) (h : WellBound s) (c : Handle) (appname : Str)
    {events : List Event} (hquiet : Quiet events) :
    clientCreate engine s c appname events = some (Ivy.clientCreate engine s c appname) := by
  rw [clientCreate, Ivy.clientCreate]
  cases s.checkConnected c with
  | some clnt => rfl
  | none => exact sendService_quiet engine h c appname hquiet

end Run

def bound : Ivy Str := { (default : Ivy Str) with
  msgRecv := [⟨0, 0, ascii "foo"⟩]
  recvId := 1
  brk := 1 }

theorem wellBound_bound : WellBound bound := by
  refine ⟨⟨List.nodup_singleton _, fun a ha => ?_⟩, List.nodup_singleton _, fun i hi => ?_⟩
  · obtain rfl := List.mem_singleton.mp ha
    decide
  · obtain rfl := List.mem_singleton.mp hi
    decide

def greetedRun : List Event :=
  [.ivyBindMsg (ascii "bar"), .proceed, .ivyUnbindMsg 0, .proceed, .proceed]

theorem greeting_announces_ahead : ∃ g,
    run (next literal) (start bound 1 []) greetedRun = some g ∧ Announced g ∧
      bytesTo 1 g.ivy.outputs = bytesTo 1 bound.outputs ++ g.lines.flatMap Line.bytes := by
  have hrun : (run (next literal) (start bound 1 []) greetedRun).isSome := by decide +kernel
  obtain ⟨g, hg⟩ := Option.isSome_iff_exists.mp hrun
  exact ⟨g, hg, greeting_announces literal wellBound_bound rfl [] (by decide +kernel) hg⟩

/-- A binding that is made when the last of the others is out is never announced, and when that
one is removed the walk goes on in freed memory. -/
theorem greeting_misses :
    (∃ g, run (next literal) (start bound 1 []) [.proceed, .ivyBindMsg (ascii "bar"), .proceed,
      .proceed] = some g ∧ g.phase = .done ∧ (bindings g.ivy).lookup 1 = some (ascii "bar") ∧
        (announced g.lines).lookup 1 = none) ∧
      ∃ g, run (next literal) (start bound 1 []) [.proceed, .ivyUnbindMsg 0, .proceed] = some g ∧
        g.phase = .stale :=
  ⟨⟨_, rfl, rfl, by decide, by decide⟩, _, rfl, rfl⟩

end IvyBus.Greeting
