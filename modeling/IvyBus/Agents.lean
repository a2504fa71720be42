import IvyBus.Channel

namespace IvyBus.Network

open Lib Ivy

variable {Code : Type} {engine : Engine Code}

structure Announceable (engine : Engine Code) (r : Str) : Prop where
  plain : lf ∉ r ∧ 0 ∉ r
  compiles : ∃ code, engine.compile r = .ok code

structure AgentOk (engine : Engine Code) (s : Ivy Code) : Prop where
  wf : s.Wf
  agree : s.tables.Agree
  bound : Bound engine s
  name : lf ∉ s.applicationName ∧ 0 ∉ s.applicationName
  ready : ∀ message, s.readyMessage = some message → lf ∉ message ∧ 0 ∉ message
  nodes : Fresh s.brk (s.msgRecv.map MsgRcv.addr)
  ids : ((bindings s).map Prod.fst).Nodup
  below : ∀ i ∈ (bindings s).map Prod.fst, i.toInt < s.recvId.toInt
  regexps : ∀ msg ∈ s.msgRecv, Announceable engine msg.regexp

structure Steady (s s' : Ivy Code) : Prop where
  frame_eq : s'.frame = s.frame
  nodes : ∀ c, (s'.findClient c).isSome → (s.findClient c).isSome
  opens : ∀ c, Open s' c → Open s c

section Steady

variable {s u s' : Ivy Code} {c : Handle}

theorem bindings_of_frame (h : s'.frame = s.frame) : bindings s' = bindings s :=
  (congrArg bindings h : bindings s'.frame = bindings s.frame)

theorem filter_of_frame (h : s'.frame = s.frame) : s'.filter = s.filter :=
  (congrArg Ivy.filter h : s'.frame.filter = s.frame.filter)

theorem recvId_of_frame (h : s'.frame = s.frame) : s'.recvId = s.recvId :=
  (congrArg Ivy.recvId h : s'.frame.recvId = s.frame.recvId)

theorem AgentOk.of_frame (h : AgentOk engine s) (hframe : s'.frame = s.frame)
    (hbrk : s.brk ≤ s'.brk) (hbound : Bound engine s') (hwf : s'.Wf) (hagree : s'.tables.Agree) :
    AgentOk engine s' := by
  have hrecv : s'.msgRecv = s.msgRecv :=
    (congrArg Ivy.msgRecv hframe : s'.frame.msgRecv = s.frame.msgRecv)
  have hname : s'.applicationName = s.applicationName :=
    (congrArg Ivy.applicationName hframe : s'.frame.applicationName = s.frame.applicationName)
  have hready : s'.readyMessage = s.readyMessage :=
    (congrArg Ivy.readyMessage hframe : s'.frame.readyMessage = s.frame.readyMessage)
  refine ⟨hwf, hagree, hbound, hname ▸ h.name, hready ▸ h.ready, ?_, ?_, ?_,
    hrecv ▸ h.regexps⟩
  · rw [hrecv]
    exact h.nodes.mono hbrk
  · rw [bindings_of_frame hframe]
    exact h.ids
  · rw [bindings_of_frame hframe, recvId_of_frame hframe]
    exact h.below

theorem Steady.refl (s : Ivy Code) : Steady s s := ⟨rfl, fun _ => id, fun _ => id⟩

theorem Steady.trans (h : Steady s u) (h' : Steady u s') : Steady s s' :=
  ⟨h'.frame_eq.trans h.frame_eq, fun c => h.nodes c ∘ h'.nodes c,
    fun c => h.opens c ∘ h'.opens c⟩

theorem findClient_bare : (s.allClients.map bare).find? (·.client = c) =
    (s.findClient c).map bare :=
  List.find?_map ..

theorem open_iff_bare : Open s c ↔
    ∃ clnt, (s.allClients.map bare).find? (·.client = c) = some clnt ∧
      clnt.ignoreSubsequentMsg = false := by
  rw [findClient_bare, Open]
  cases s.findClient c with
  | none => simp
  | some clnt => simp [bare]

theorem steady_of_bare (hframe : s'.frame = s.frame)
    (hbare : s'.allClients.map bare = s.allClients.map bare) : Steady s s' := by
  refine ⟨hframe, fun c => ?_, fun c => ?_⟩
  · rw [findClient_isSome, findClient_isSome, handles_of_bare hbare]
    exact id
  · rw [open_iff_bare, open_iff_bare, hbare]
    exact id

theorem steady_modifyClient (s : Ivy Code) (c : Handle) {f : IvyClient → IvyClient}
    (hc : ∀ clnt, (f clnt).client = clnt.client)
    (hf : ∀ clnt, (f clnt).ignoreSubsequentMsg = false → clnt.ignoreSubsequentMsg = false) :
    Steady s (s.modifyClient c f) := by
  refine ⟨rfl, fun c' => ?_, fun c' => ?_⟩
  · rw [findClient_modify hc, Option.isSome_map]
    exact id
  · rintro ⟨clnt, hclnt, hopen⟩
    rw [findClient_modify hc] at hclnt
    obtain ⟨clnt, hfind, rfl⟩ := Option.map_eq_some_iff.mp hclnt
    refine ⟨clnt, hfind, ?_⟩
    split at hopen
    · exact hf clnt hopen
    · exact hopen

theorem linesTo_wire {os : List Output} {ms : List Message} (h : bytesTo c os = wire ms) :
    linesTo c os = ms.map Message.line := by
  rw [linesTo, h, feed_wire]

theorem sends_skips (hframe : s'.frame = s.frame)
    (hnodes : (s'.findClient c).isSome → (s.findClient c).isSome) {os : List Output}
    (hos : s'.outputs = s.outputs ++ os) {ms : List Message} (hbytes : bytesTo c os = wire ms)
    (hsent : ∀ m ∈ ms, Sent engine m) (hskip : ∀ m ∈ ms, note m = .skip)
    (hsilent : s.findClient c = none → ms = []) : Sends engine s s' c ms := by
  have hskips : ∀ n ∈ ms.map note, n = .skip := by
    intro n hn
    obtain ⟨m, hm, rfl⟩ := List.mem_map.mp hn
    exact hskip m hm
  have hputs : puts ms = [] := puts_skips hskips
  refine ⟨?_, hsent, hnodes, hsilent, ?_, ?_, ?_, fun _ => ?_⟩
  · rw [hos, List.drop_left, linesTo_wire hbytes]
  · exact Int.le_of_eq (congrArg Int32.toInt (recvId_of_frame hframe).symm)
  · rw [hputs]
    exact List.nodup_nil
  · rw [hputs]
    exact nofun
  · rw [replay_skips hskips, bindings_of_frame hframe]

theorem sends_kept (h : Steady s s') (hkept : Kept engine s s') (c : Handle) :
    Sends engine s s' c [] := by
  obtain ⟨os, hos, hquiet⟩ := hkept.quiet
  exact sends_skips h.frame_eq (h.nodes c) hos (hquiet c) nofun nofun fun _ => rfl

end Steady

structure Local (engine : Engine Code) (s s' : Ivy Code) : Prop where
  ok : AgentOk engine s'
  sends : ∀ c, ∃ ms, Sends engine s s' c ms
  opens : ∀ c, Open s' c → Open s c
  filter_eq : s'.filter = s.filter
  registered_eq : ∀ c, s'.registered c = s.registered c

section Bindings

variable {s s' : Ivy Code}

theorem foldl_msgSendToAll (msgtype : MsgType) (id : Int32) (t : Str) (l : List IvyClient)
    (s : Ivy Code) : l.foldl (fun s clnt => s.msgSendTo clnt.client msgtype id t) s =
      s.extend (l.map fun clnt => .send clnt.client (msgText msgtype id t)) := by
  induction l generalizing s with
  | nil => exact (extend_nil s).symm
  | cons clnt l ih =>
    rw [List.foldl_cons, ih]
    exact extend_extend s [_] _

theorem bytesTo_count (c : Handle) (bytes : Str) (l : List IvyClient) :
    bytesTo c (l.map fun clnt => .send clnt.client bytes) =
      (List.replicate ((l.map IvyClient.client).count c) bytes).flatten := by
  induction l with
  | nil => rfl
  | cons clnt l ih =>
    rw [List.map_cons, ← List.singleton_append, bytesTo_append, ih, List.map_cons]
    by_cases hc : clnt.client = c
    · rw [hc, List.count_cons_self, List.replicate_succ, List.flatten_cons]
      simp [bytesTo]
    · rw [List.count_cons_of_ne hc]
      simp [bytesTo, hc]

theorem bytesTo_all (c : Handle) (bytes : Str) {l : List IvyClient}
    (h : (l.map IvyClient.client).Nodup) :
    bytesTo c (l.map fun clnt => .send clnt.client bytes) =
      if c ∈ l.map IvyClient.client then bytes else [] := by
  rw [bytesTo_count, h.count]
  split
  · exact List.append_nil _
  · rfl

theorem sends_all {m : Message} (hwf : s.Wf)
    (hos : s'.outputs = s.outputs ++ s.allClients.map fun clnt => .send clnt.client m.bytes)
    (hclients : s'.allClients = s.allClients) (hsent : Sent engine m)
    (hle : s.recvId.toInt ≤ s'.recvId.toInt) (hnodup : (puts [m]).Nodup)
    (hnew : ∀ i ∈ puts [m], s.recvId.toInt ≤ i.toInt ∧ i.toInt < s'.recvId.toInt)
    (hperm : ((note m).apply (bindings s)).Perm (bindings s')) (c : Handle) :
    ∃ ms, Sends engine s s' c ms := by
  have hfind : s'.findClient c = s.findClient c := by
    rw [Ivy.findClient, hclients]
    rfl
  have hlines : linesTo c (s'.outputs.drop s.outputs.length) =
      linesTo c (s.allClients.map fun clnt => .send clnt.client m.bytes) := by
    rw [hos, List.drop_left]
  by_cases hc : (s.findClient c).isSome
  · refine ⟨[m], ?_, by simpa using hsent, fun _ => hc, fun hnone => ?_, hle, hnodup, hnew,
      fun _ => hperm⟩
    · rw [hlines]
      apply linesTo_wire
      rw [bytesTo_all c _ hwf.clients.handles, if_pos (findClient_isSome.mp hc), wire,
        List.flatMap_singleton]
    · rw [hnone] at hc
      cases hc
  · refine ⟨[], ?_, List.forall_mem_nil _, fun hc' => absurd (hfind ▸ hc') hc, fun _ => rfl, hle,
      List.nodup_nil, List.forall_mem_nil _, fun hc' => absurd hc' hc⟩
    rw [hlines]
    apply linesTo_wire
    rw [bytesTo_all c _ hwf.clients.handles, if_neg fun hin => hc (findClient_isSome.mpr hin)]
    rfl

theorem toInt_succ {n : Int32} (h : n ≠ Int32.maxValue) : (n + 1).toInt = n.toInt + 1 := by
  have hle : n.toInt ≤ 2147483647 := Int32.toInt_le n
  have hne : n.toInt ≠ 2147483647 := fun heq => h (Int32.toInt_inj.mp heq)
  have hge : -2147483648 ≤ n.toInt := Int32.le_toInt n
  rw [Int32.toInt_add, Int32.toInt_one]
  apply Int.bmod_eq_of_le
  · omega
  · omega

theorem AgentOk.bind (h : AgentOk engine s) {r : Str} (hr : Announceable engine r)
    (hmax : s.recvId ≠ Int32.maxValue) :
    ∃ s', ivyBindMsg s r = some s' ∧ Local engine s s' := by
  have hsucc := toInt_succ hmax
  have hlt : s.recvId.toInt < (s.recvId + 1).toInt := by omega
  refine ⟨_, if_neg hmax, ?_⟩
  rw [msgSendToAll, foldl_msgSendToAll]
  refine ⟨⟨⟨h.wf.dict.mono (Nat.le_succ _), h.wf.clients.mono (Nat.le_succ _)⟩, h.agree, h.bound,
    h.name, h.ready, h.nodes.cons, ?_, ?_, ?_⟩, fun c => ?_, fun _ => id, rfl, fun _ => rfl⟩
  · refine List.nodup_cons.mpr ⟨fun hin => ?_, h.ids⟩
    exact Int.lt_irrefl _ (h.below _ hin)
  · intro i hi
    rcases List.mem_cons.mp hi with rfl | hi
    · exact hlt
    · exact Int.lt_trans (h.below i hi) hlt
  · intro msg hmsg
    rcases List.mem_cons.mp hmsg with rfl | hmsg
    · exact hr
    · exact h.regexps msg hmsg
  · apply sends_all (m := ⟨.addRegexp, s.recvId, ⟨r, hr.plain⟩⟩) h.wf
    · rfl
    · rfl
    · exact ⟨by simp, fun _ => hr.compiles⟩
    · exact Int.le_of_lt hlt
    · exact List.nodup_singleton _
    · intro i hi
      rw [List.mem_singleton.mp hi]
      exact ⟨Int.le_refl _, hlt⟩
    · exact List.Perm.refl _

theorem filter_binding {pre post : List MsgRcv} {msg : MsgRcv}
    (hids : (((pre ++ msg :: post).map fun msg => (msg.id, msg.regexp)).map Prod.fst).Nodup) :
    ((pre ++ msg :: post).map fun msg => (msg.id, msg.regexp)).filter (·.1 ≠ msg.id) =
      (pre ++ post).map fun msg => (msg.id, msg.regexp) := by
  rw [List.map_map, List.map_append, List.nodup_append, List.map_cons, List.nodup_cons] at hids
  have hkeep : ∀ l : List MsgRcv, msg.id ∉ l.map MsgRcv.id →
      l.filter (fun x => x.id ≠ msg.id) = l := fun l hl =>
    List.filter_eq_self.mpr fun x hx =>
      decide_eq_true fun heq => hl (heq ▸ List.mem_map_of_mem hx)
  rw [List.filter_map]
  congr 1
  change (pre ++ msg :: post).filter (fun x => x.id ≠ msg.id) = pre ++ post
  rw [List.filter_append, List.filter_cons_of_neg (by simp), hkeep post hids.2.1.1,
    hkeep pre fun hin => hids.2.2 _ hin _ List.mem_cons_self rfl]

theorem AgentOk.unbind (h : AgentOk engine s) {addr : Nat}
    (hlive : addr ∈ s.msgRecv.map MsgRcv.addr) :
    ∃ s', ivyUnbindMsg s addr = some s' ∧ Local engine s s' := by
  obtain ⟨msg, hmsg, rfl⟩ := List.mem_map.mp hlive
  obtain ⟨pre, post, hs⟩ := List.append_of_mem hmsg
  have haddr := h.nodes.1
  have hnew : msg.addr ∉ pre.map MsgRcv.addr := by
    rw [hs, List.map_append, List.nodup_append] at haddr
    exact fun hin => haddr.2.2 _ hin _ (by simp) rfl
  have hrest : unlink MsgRcv.addr msg.addr s.msgRecv = pre ++ post := by
    rw [hs, unlink_cell hnew]
  have hsub : (pre ++ post).Sublist s.msgRecv := by
    rw [hs]
    exact (List.sublist_cons_self ..).append_left _
  have hfilter : (bindings s).filter (·.1 ≠ msg.id) =
      (pre ++ post).map fun msg => (msg.id, msg.regexp) := by
    rw [bindings, hs]
    refine filter_binding ?_
    rw [← hs]
    exact h.ids
  have hcall : ivyUnbindMsg s msg.addr =
      some { s.msgSendToAll .delRegexp msg.id [] with msgRecv := pre ++ post } := by
    rw [ivyUnbindMsg, find?_cell haddr hmsg, ← hrest]
    rfl
  refine ⟨_, hcall, ?_⟩
  rw [msgSendToAll, foldl_msgSendToAll]
  refine ⟨⟨⟨h.wf.dict, h.wf.clients⟩, h.agree, h.bound, h.name, h.ready,
    h.nodes.sublist (hsub.map _), ?_, ?_, fun x hx => h.regexps x (hsub.subset hx)⟩, fun c => ?_,
    fun _ => id, rfl, fun _ => rfl⟩
  · exact h.ids.sublist ((hsub.map _).map _)
  · exact fun i hi => h.below i (((hsub.map _).map _).subset hi)
  · apply sends_all (m := ⟨.delRegexp, msg.id, ⟨[], List.not_mem_nil, List.not_mem_nil⟩⟩) h.wf
    · rfl
    · rfl
    · exact ⟨by simp, nofun⟩
    · exact Int.le_refl _
    · exact List.nodup_nil
    · exact nofun
    · exact List.Perm.of_eq hfilter

end Bindings

section Greeting

variable {s r : Ivy Code} {c : Handle}

theorem exists_announcements (c : Handle) {l : List MsgRcv}
    (h : ∀ msg ∈ l, Announceable engine msg.regexp) : ∃ ms : List Message,
      bytesTo c (l.map fun msg => .send c (msgText .addRegexp msg.id msg.regexp)) = wire ms ∧
        ms.map note = announce (l.map fun msg => (msg.id, msg.regexp)) ∧
          ∀ m ∈ ms, Sent engine m := by
  induction l with
  | nil => exact ⟨[], rfl, rfl, nofun⟩
  | cons msg l ih =>
    obtain ⟨ms, hbytes, hnotes, hsent⟩ := ih fun msg' hmsg' => h msg' (List.mem_cons_of_mem _ hmsg')
    have hmsg := h msg List.mem_cons_self
    refine ⟨⟨.addRegexp, msg.id, ⟨msg.regexp, hmsg.plain⟩⟩ :: ms, ?_, ?_, fun m hm => ?_⟩
    · rw [List.map_cons, ← List.singleton_append, bytesTo_append, hbytes]
      simp [bytesTo, wire, Message.bytes]
    · rw [List.map_cons, hnotes]
      rfl
    · rcases List.mem_cons.mp hm with rfl | hm
      · exact ⟨by simp, fun _ => hmsg.compiles⟩
      · exact hsent m hm

theorem AgentOk.greeting (h : AgentOk engine s) (c : Handle) : ∃ ms : List Message,
    bytesTo c (s.greeting c) = wire ms ∧
      ms.map note = .skip :: (announce (bindings s) ++ [.skip]) ∧ ∀ m ∈ ms, Sent engine m := by
  obtain ⟨ms, hbytes, hnotes, hsent⟩ := exists_announcements c h.regexps
  refine ⟨⟨.startRegexp, Int32.ofNat s.applicationPort.toNat, ⟨s.applicationName, h.name⟩⟩ ::
    (ms ++ [⟨.endRegexp, 0, ⟨[], List.not_mem_nil, List.not_mem_nil⟩⟩]), ?_, ?_, fun m hm => ?_⟩
  · rw [Ivy.greeting, ← List.singleton_append, bytesTo_append, bytesTo_append, hbytes]
    simp [bytesTo, wire, Message.bytes]
  · rw [List.map_cons, List.map_append, hnotes]
    rfl
  · rcases List.mem_cons.mp hm with rfl | hm
    · exact ⟨by simp, fun hkind => by cases hkind⟩
    · rcases List.mem_append.mp hm with hm | hm
      · exact hsent m hm
      · rw [List.mem_singleton.mp hm]
        exact ⟨by simp, fun hkind => by cases hkind⟩

theorem bytesTo_of_ne {os : List Output} (h : ∀ o ∈ os, ∃ bytes, o = .send c bytes)
    {c' : Handle} (hne : c' ≠ c) : bytesTo c' os = [] := by
  rw [bytesTo, List.flatMap_eq_nil_iff]
  intro o ho
  obtain ⟨bytes, rfl⟩ := h o ho
  exact if_neg hne.symm

theorem bytesTo_greeting_of_ne {c' : Handle} (hne : c' ≠ c) :
    bytesTo c' (s.greeting c) = [] := by
  apply bytesTo_of_ne _ hne
  intro o ho
  simp only [Ivy.greeting, List.mem_cons, List.mem_append, List.mem_map, List.not_mem_nil,
    or_false] at ho
  rcases ho with rfl | ⟨msg, -, rfl⟩ | rfl
  · exact ⟨_, rfl⟩
  · exact ⟨_, rfl⟩
  · exact ⟨_, rfl⟩

structure Greets (engine : Engine Code) (s s' : Ivy Code) (c : Handle) : Prop where
  ok : AgentOk engine s'
  sends : ∀ c', c' ≠ c → ∃ ms, Sends engine s s' c' ms
  opens : ∀ c', c' ≠ c → Open s' c' → Open s c'
  filter_eq : s'.filter = s.filter
  registered_eq : ∀ c', s'.registered c' = s.registered c'
  channel : ∀ r waits, r.registered c = [] →
    Channel engine s' r c (linesTo c (s'.outputs.drop s.outputs.length)) waits

theorem AgentOk.greets (h : AgentOk engine s) (hnew : s.findClient c = none) (appname : Str) :
    Greets engine s (sendService engine s c appname) c := by
  obtain ⟨hwf, hframe, htables⟩ := h.wf.sendService engine hnew appname
  have hagree := h.agree
  rw [← htables] at hagree
  have hregistered : ∀ c', (sendService engine s c appname).registered c' = s.registered c' :=
    fun c' => congrFun (congrArg Tables.registered htables) c'
  have heq := sendService_eq engine hnew appname
  have hfind : ∀ c', c' ≠ c → (sendService engine s c appname).findClient c' = s.findClient c' := by
    intro c' hne
    rw [heq]
    exact List.find?_cons_of_neg fun hc => hne (of_decide_eq_true hc).symm
  have hos : (sendService engine s c appname).outputs = s.outputs ++ s.greeting c := by rw [heq]
  refine ⟨h.of_frame hframe ?_ ?_ hwf hagree, fun c' hne => ⟨[], ?_⟩, fun c' hne => ?_,
    filter_of_frame hframe, hregistered, fun r waits hr => ?_⟩
  · rw [heq]
    exact Nat.le_succ _
  · rw [heq]
    exact h.bound
  · exact sends_skips hframe (fun hc => hfind c' hne ▸ hc) hos (bytesTo_greeting_of_ne hne) nofun
      nofun fun _ => rfl
  · rintro ⟨clnt, hclnt, hopen⟩
    exact ⟨clnt, hfind c' hne ▸ hclnt, hopen⟩
  · obtain ⟨ms, hbytes, hnotes, hsent⟩ := h.greeting c
    have hputs : (Note.skip :: (announce (bindings s) ++ [.skip])).flatMap Note.puts =
        (bindings s).map Prod.fst := by
      rw [List.flatMap_cons, List.flatMap_append, puts_announce]
      exact List.append_nil _
    refine ⟨ms, ?_, ⟨hsent, ?_, ?_⟩, fun _ => ?_⟩
    · rw [hos, List.drop_left, linesTo_wire hbytes]
    · rw [hr, hnotes, names, hputs]
      exact h.ids
    · rw [hr, hnotes, names, hputs, recvId_of_frame hframe]
      exact h.below
    · have hreplay : replay [] (.skip :: (announce (bindings s) ++ [.skip])) =
          (bindings s).reverse := by
        change replay [] (announce (bindings s) ++ [.skip]) = _
        rw [replay_append, replay_announce, List.append_nil]
        rfl
      rw [hr, hnotes, hreplay, bindings_of_frame hframe]
      exact List.reverse_perm _

theorem AgentOk.refuses (h : AgentOk engine s) (c : Handle) :
    Local engine s (s.socketClose c) := by
  have hsteady : Steady s (s.socketClose c) := ⟨rfl, fun _ => id, fun _ => id⟩
  have hkept : Kept engine s (s.socketClose c) := ⟨le_rfl, fun hb => hb, _, rfl, fun _ => rfl⟩
  exact ⟨h.of_frame rfl le_rfl h.bound ⟨h.wf.dict, h.wf.clients⟩ h.agree,
    fun c' => ⟨[], sends_kept hsteady hkept c'⟩, hsteady.opens, rfl, fun _ => rfl⟩

end Greeting

end IvyBus.Network
