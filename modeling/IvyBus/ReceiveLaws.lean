import IvyBus.Disconnect
import IvyBus.Receive
import IvyBus.WireLaws

namespace IvyBus.Ivy

variable {Code : Type}

def setId (s : Ivy Code) (c : Handle) (id : Int32) : Ivy Code :=
  s.modifyClient c fun clnt => { clnt with id := id }

theorem Updated.trans {s u s' : Ivy Code} {t t' : Tables} (h : Updated s u t)
    (h' : Updated u s' t') : Updated s s' t' :=
  ⟨h'.wf, h'.frame_eq.trans h.frame_eq, h'.clients_eq.trans h.clients_eq, h'.tables_eq⟩

section Modify

variable {s : Ivy Code} {c : Handle} {f : IvyClient → IvyClient}

theorem map_modifyClient {α : Type} {g : IvyClient → α} (hg : ∀ clnt, g (f clnt) = g clnt) :
    (s.modifyClient c f).allClients.map g = s.allClients.map g := by
  simp only [modifyClient, List.map_map]
  apply List.map_congr_left
  intro clnt _
  simp only [Function.comp_apply]
  split
  · exact hg clnt
  · rfl

theorem srcRegs_modifyClient (hc : ∀ clnt, (f clnt).client = clnt.client)
    (hf : ∀ clnt, (f clnt).srcRegList = clnt.srcRegList) (c' : Handle) :
    (s.modifyClient c f).srcRegs c' = s.srcRegs c' := by
  rw [srcRegs, findClient_modify hc, srcRegs]
  cases s.findClient c' with
  | none => rfl
  | some clnt =>
    rw [Option.map_some]
    split
    · exact hf clnt
    · rfl

theorem Wf.modifyClient (h : s.Wf) (hc : ∀ clnt, (f clnt).client = clnt.client)
    (hf : ∀ clnt, (f clnt).srcRegList = clnt.srcRegList) : (s.modifyClient c f).Wf := by
  refine ⟨h.dict, ?_, ?_⟩
  · rw [map_modifyClient hc]
    exact h.clients.handles
  · intro clnt hclnt
    obtain ⟨clnt, hmem, rfl⟩ := List.mem_map.mp hclnt
    split
    · rw [hf]
      exact h.clients.srcs clnt hmem
    · exact h.clients.srcs clnt hmem

theorem tables_modifyClient (hc : ∀ clnt, (f clnt).client = clnt.client)
    (hf : ∀ clnt, (f clnt).srcRegList = clnt.srcRegList) :
    (s.modifyClient c f).tables = s.tables := by
  have hregistered : (s.modifyClient c f).registered = s.registered := by
    funext c'
    rw [registered, srcRegs_modifyClient hc hf]
    rfl
  rw [tables, hregistered]
  rfl

end Modify

theorem Wf.setId {s : Ivy Code} (h : s.Wf) (c : Handle) (id : Int32) :
    Updated s (s.setId c id) s.tables :=
  ⟨h.modifyClient (fun _ => rfl) fun _ => rfl, rfl, map_modifyClient fun _ => rfl,
    tables_modifyClient (fun _ => rfl) fun _ => rfl⟩

section Receive

variable {s : Ivy Code} {c : Handle} {clnt : IvyClient} {engine : Engine Code}

theorem receive_header (hfind : s.findClient c = some clnt)
    (hopen : clnt.ignoreSubsequentMsg = false) (msgtype : MsgType) (i : Int32) (arg : Str) :
    receive engine s c (header msgtype i ++ arg) =
      match msgtype with
      | .bye => some ((s.setId c i).socketClose c)
      | .addRegexp => receiveAddRegexp engine (s.setId c i) { clnt with id := i } arg
      | .delRegexp => (s.setId c i).receiveDelRegexp { clnt with id := i } arg
      | .startRegexp => some ((s.setId c i).receiveStartRegexp { clnt with id := i } arg)
      | .endRegexp => some (announceReady engine ((s.setId c i).emit (.connected c)) c)
      | .ping => some ((s.setId c i).msgSendTo c .pong i [])
      | _ => some (s.setId c i) := by
  simp only [receive, hfind, hopen, parseHeader_header, MsgType.ofInt32_toInt32]
  cases msgtype <;> rfl

theorem Wf.receiveAddRegexp (h : s.Wf) (hc : (s.findClient clnt.client).isSome) {arg : Str}
    {s' : Ivy Code} (hs' : receiveAddRegexp engine s clnt arg = some s') :
    Updated s s' (if ivyBindingFilter engine s.filter arg
      then s.tables.addOrChange clnt.client clnt.id arg else s.tables) := by
  unfold Ivy.receiveAddRegexp at hs'
  split
  · rename_i hpass
    rw [if_pos hpass] at hs'
    exact h.addOrChangeRegexp hc hs'
  · rename_i hpass
    rw [if_neg hpass] at hs'
    exact Option.some.inj hs' ▸ ⟨⟨h.dict, h.clients⟩, rfl, rfl, rfl⟩

theorem Wf.receiveAddRegexp_isSome (h : s.Wf) (hc : (s.findClient clnt.client).isSome) {arg : Str}
    (hfits : errorFits engine arg) : (Ivy.receiveAddRegexp engine s clnt arg).isSome := by
  unfold Ivy.receiveAddRegexp
  split
  · exact h.addOrChangeRegexp_isSome hc hfits
  · rfl

theorem Wf.receiveAddRegexp_isSome_iff (h : s.Wf) (hfit : Fitting engine s.tables)
    (hc : (s.findClient clnt.client).isSome) {arg : Str} :
    (Ivy.receiveAddRegexp engine s clnt arg).isSome ↔
      (ivyBindingFilter engine s.filter arg → errorFits engine arg) := by
  unfold Ivy.receiveAddRegexp
  split
  · rename_i hpass
    rw [h.addOrChangeRegexp_isSome_iff hfit hc]
    exact ⟨fun hfits _ => hfits, fun himp => himp hpass⟩
  · rename_i hpass
    exact iff_of_true rfl fun hpass' => absurd hpass' hpass

theorem receive_addRegexp (hfind : s.findClient c = some clnt)
    (hopen : clnt.ignoreSubsequentMsg = false) (i : Int32) (r : Str) :
    receive engine s c (header .addRegexp i ++ r) =
      receiveAddRegexp engine (s.setId c i) { clnt with id := i } r :=
  receive_header hfind hopen .addRegexp i r

theorem setId_isSome (hfind : s.findClient c = some clnt) (h : s.Wf) (i : Int32) :
    ((s.setId c i).findClient ({ clnt with id := i } : IvyClient).client).isSome := by
  refine (h.setId c i).findClient ?_
  rw [client_of_findClient hfind, hfind]
  rfl

theorem Wf.receive_addRegexp (h : s.Wf) (hfind : s.findClient c = some clnt)
    (hopen : clnt.ignoreSubsequentMsg = false) {i : Int32} {r : Str} {s' : Ivy Code}
    (hs' : receive engine s c (header .addRegexp i ++ r) = some s') :
    Updated s s' (if ivyBindingFilter engine s.filter r then s.tables.addOrChange c i r
      else s.tables) := by
  have hid := h.setId c i
  rw [Ivy.receive_addRegexp hfind hopen] at hs'
  have hupd := hid.wf.receiveAddRegexp (setId_isSome hfind h i) hs'
  rw [hid.tables_eq, client_of_findClient hfind] at hupd
  exact hid.trans hupd

theorem Wf.receive_addRegexp_isSome_iff (h : s.Wf) (hfit : Fitting engine s.tables)
    (hfind : s.findClient c = some clnt) (hopen : clnt.ignoreSubsequentMsg = false) {i : Int32}
    {r : Str} : (Ivy.receive engine s c (header .addRegexp i ++ r)).isSome ↔
      (ivyBindingFilter engine s.filter r → errorFits engine r) := by
  have hid := h.setId c i
  rw [Ivy.receive_addRegexp hfind hopen]
  exact hid.wf.receiveAddRegexp_isSome_iff (hid.tables_eq ▸ hfit) (setId_isSome hfind h i)

theorem Wf.receive_delRegexp (engine : Engine Code) (h : s.Wf) (hfind : s.findClient c = some clnt)
    (hopen : clnt.ignoreSubsequentMsg = false) (i : Int32) (arg : Str) :
    ∃ s', receive engine s c (header .delRegexp i ++ arg) = some s' ∧
      Updated s s' (s.tables.del c i i) := by
  have hid := h.setId c i
  have hclient := client_of_findClient hfind
  have hc : (s.findClient clnt.client).isSome := by
    rw [hclient, hfind]
    rfl
  obtain ⟨s', removed, hs', hupd, -⟩ := @Wf.delRegexpForOneClient Code _ hid.wf
    { clnt with id := i } (hid.findClient hc) i
  rw [hid.tables_eq] at hupd
  have hline : receive engine s c (header .delRegexp i ++ arg) =
      (s.setId c i).receiveDelRegexp { clnt with id := i } arg :=
    receive_header hfind hopen .delRegexp i arg
  rw [hline, receiveDelRegexp, hs', Option.map_some]
  refine ⟨_, rfl, ?_⟩
  dsimp only
  split
  · exact hclient ▸ (hid.trans hupd).emit _
  · exact hclient ▸ hid.trans hupd

end Receive

def greeting (s : Ivy Code) (c : Handle) : List Output :=
  .send c (msgText .startRegexp (Int32.ofNat s.applicationPort.toNat) s.applicationName) ::
    (s.msgRecv.map (fun msg => .send c (msgText .addRegexp msg.id msg.regexp)) ++
      [.send c (msgText .endRegexp 0 [])])

theorem foldl_msgSendTo (c : Handle) (l : List MsgRcv) (s : Ivy Code) :
    l.foldl (fun s msg => s.msgSendTo c .addRegexp msg.id msg.regexp) s =
      { s with outputs := s.outputs ++
          l.map fun msg => .send c (msgText .addRegexp msg.id msg.regexp) } := by
  induction l generalizing s with
  | nil => simp
  | cons msg l ih =>
    rw [List.foldl_cons, ih]
    simp [msgSendTo, emit]

def newNode (s : Ivy Code) (c : Handle) (appname : Str) : IvyClient :=
  ⟨s.brk, c, appname, 0, 0, [], 1, false⟩

/-- A node that has just been linked is ready once, which is not enough for the ready message. -/
theorem announceReady_new (engine : Engine Code) {s : Ivy Code} {clnt : IvyClient}
    (hnew : s.findClient clnt.client = none) (hready : clnt.readyToSend = 0) :
    announceReady engine { s with allClients := clnt :: s.allClients } clnt.client =
      { s with allClients := { clnt with readyToSend := 1 } :: s.allClients } := by
  have hother : ∀ (f : IvyClient → IvyClient), ∀ cl ∈ s.allClients,
      (if cl.client = clnt.client then f cl else cl) = cl := fun f cl hcl =>
    if_neg fun heq => List.find?_eq_none.mp hnew cl hcl (decide_eq_true heq)
  have hmap : ∀ f : IvyClient → IvyClient,
      (s.allClients.map fun cl => if cl.client = clnt.client then f cl else cl) = s.allClients :=
    fun f => (List.map_congr_left (hother f)).trans (List.map_id _)
  simp only [announceReady, modifyClient, List.map_cons, hmap, if_true, findClient,
    List.find?_cons, decide_true, hready]
  cases s.readyMessage with
  | none => rfl
  | some message => simp

theorem sendService_eq (engine : Engine Code) {s : Ivy Code} {c : Handle}
    (hnew : s.findClient c = none) (appname : Str) :
    sendService engine s c appname =
      { s with
        brk := s.brk + 1
        allClients := s.newNode c appname :: s.allClients
        outputs := s.outputs ++ s.greeting c } := by
  simp only [sendService, foldl_msgSendTo]
  refine (@announceReady_new Code engine { s with brk := s.brk + 1, outputs := _ }
    ⟨s.brk, c, appname, 0, 0, [], 0, false⟩ hnew rfl).trans ?_
  simp [greeting, newNode, msgSendTo, emit]

theorem Wf.sendService (engine : Engine Code) {s : Ivy Code} (h : s.Wf) {c : Handle}
    (hnew : s.findClient c = none) (appname : Str) :
    (Ivy.sendService engine s c appname).Wf ∧
      (Ivy.sendService engine s c appname).frame = s.frame ∧
      (Ivy.sendService engine s c appname).tables = s.tables := by
  rw [sendService_eq engine hnew]
  refine ⟨⟨h.dict.mono (Nat.le_succ _), ?_, ?_⟩, rfl, ?_⟩
  · rw [List.map_cons, List.nodup_cons]
    refine ⟨fun hin => ?_, h.clients.handles⟩
    have hfound : (s.findClient c).isSome := findClient_isSome.mpr hin
    rw [hnew] at hfound
    cases hfound
  · intro clnt hclnt
    rcases List.mem_cons.mp hclnt with rfl | hclnt
    · exact ⟨List.nodup_nil, nofun⟩
    · exact (h.clients.srcs clnt hclnt).mono (Nat.le_succ _)
  · refine congrArg (Tables.mk s.listed) (funext fun c' => ?_)
    rw [registered, srcRegs, findClient, List.find?_cons]
    split
    · rename_i hc'
      rw [show c = c' from of_decide_eq_true hc'] at hnew
      rw [registered, srcRegs, hnew]
      rfl
    · rfl

end IvyBus.Ivy
