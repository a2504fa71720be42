import Mathlib.Data.List.InsertIdx
import Mathlib.Data.List.Perm.Basic
import Mathlib.Data.List.Perm.Subperm
import Mathlib.Logic.Function.Basic
import IvyBus.Supervision

namespace IvyBus.Discovery

open Lib Socket

abbrev ivymajorVersion : Int32 := 3
abbrev appidSize : Nat := 128
abbrev appnameSize : Nat := 2048

/-- What `GenApplicationUniqueIdentifier` prints: a random number, the time, and the port of the
service. -/
structure Uuid where
  rand : Int32
  curtime : UInt64
  port : UInt16
  deriving DecidableEq

def genApplicationUniqueIdentifier (u : Uuid) : Str :=
  printInt u.rand.toInt ++ 58 :: (printInt u.curtime.toNat ++ 58 :: printInt u.port.toNat)

def announcement (u : Uuid) (name : Str) : Str :=
  printInt ivymajorVersion.toInt ++ 32 :: (printInt u.port.toNat ++
    32 :: (genApplicationUniqueIdentifier u ++ 32 :: name))

/-- An application and its host, announced in one datagram. -/
structure Identity (Addr : Type) where
  addr : Addr
  uuid : Uuid
  name : Str
  lf_notMem : lf ∉ name
  zero_notMem : 0 ∉ name
  length_le : (announcement uuid name).length + 1 ≤ ivyBufferSize

variable {Addr κ : Type}

namespace Identity

def appId (who : Identity Addr) : Str := genApplicationUniqueIdentifier who.uuid

def line (who : Identity Addr) : Str := announcement who.uuid who.name

/-- The array that the name is read into has room for it. -/
def NameFits (who : Identity Addr) : Prop := (who.name.dropWhile isSpace).length < appnameSize

end Identity

/-- `sscanf` with the format `"%d %hu %s %[^\n]"`; `none` unless both numbers are read. The arrays
hold empty strings before. -/
def sscanf (line : Str) : Option (Int32 × UInt16 × Str × Str) :=
  (scanInt line).bind fun version =>
    (scanInt version.2).map fun serviceport =>
      let appid := serviceport.2.dropWhile isSpace
      let appname := (appid.dropWhile (!isSpace ·)).dropWhile isSpace
      ((strtol version.1).toInt32, (strtoul serviceport.1).toUInt16,
        appid.takeWhile (!isSpace ·), appname.takeWhile (· ≠ lf))

/-- A call of `SocketConnectAddr`, with what `SendService` and `SocketSetUuid` are told then. -/
structure Attempt (Addr : Type) where
  remote : Option Addr
  serviceport : UInt16
  appid : Str
  appname : Str

/-- `none` when an array is written beyond its end. -/
def broadcastReceive (applicationId : Str) (line : Str) (remote : Option Addr) :
    Option (Option (Attempt Addr)) :=
  match sscanf line with
  | none => some none
  | some (version, serviceport, appid, appname) =>
    if appid.length < appidSize ∧ appname.length < appnameSize then
      some <|
        if version ≠ ivymajorVersion then none
        else if appid = applicationId then none
        else some ⟨remote, serviceport, appid, appname⟩
    else none

/-- An application that listens on the supervision port, and the connections it has tried. -/
structure Node (Addr : Type) where
  channel : Supervision.State Addr
  attempts : List (Attempt Addr)

/-- The datagram is handled, and its lines are passed to `BroadcastReceive`. -/
def Node.receive (applicationId : Str) (n : Node Addr) (d : Supervision.Datagram Addr) :
    Option (Node Addr) :=
  (Supervision.next n.channel d).bind fun channel =>
    ((channel.calls.drop n.channel.calls.length).mapM fun call =>
      broadcastReceive applicationId call.1 call.2).map fun attempts =>
        ⟨channel, n.attempts ++ attempts.filterMap id⟩

/-! The identifier and the line are printed and read back. -/

theorem length_printInt_lt {k : Nat} {i : Int} (h : i.natAbs < 10 ^ (k + 1)) :
    (printInt i).length < k + 3 := by
  have hdigits := length_printNat_le h
  rw [printInt]
  split
  · rw [List.length_cons]
    omega
  · omega

theorem scanInt_printed (i : Int) {c : UInt8} (hc : isDigit c = false) (s : Str) :
    scanInt (printInt i ++ c :: s) = some (i, c :: s) :=
  scanInt_printInt i fun _ hb => Option.some.inj hb ▸ hc

theorem printed_inj {i j : Int} {c : UInt8} (hc : isDigit c = false) {s t : Str}
    (h : printInt i ++ c :: s = printInt j ++ c :: t) : i = j ∧ s = t := by
  have hscan := scanInt_printed i hc s
  rw [h, scanInt_printed j hc t] at hscan
  obtain ⟨hi, hs⟩ := Prod.mk.inj (Option.some.inj hscan)
  exact ⟨hi.symm, (List.cons.inj hs).2.symm⟩

theorem genApplicationUniqueIdentifier_injective :
    Function.Injective genApplicationUniqueIdentifier := by
  rintro ⟨rand, curtime, port⟩ ⟨rand', curtime', port'⟩ h
  obtain ⟨hrand, h⟩ := printed_inj (by decide) h
  obtain ⟨hcurtime, h⟩ := printed_inj (by decide) h
  have hport := printed_inj (i := port.toNat) (j := port'.toNat) (c := 58) (by decide)
    (congrArg (· ++ [58]) h)
  obtain rfl := Int32.toInt_inj.mp hrand
  obtain rfl := UInt64.toNat_inj.mp (Int.ofNat.inj hcurtime)
  obtain rfl := UInt16.toNat_inj.mp (Int.ofNat.inj hport.1)
  rfl

theorem length_appId_lt (u : Uuid) : (genApplicationUniqueIdentifier u).length < appidSize := by
  have hrand : (printInt u.rand.toInt).length < 9 + 3 := length_printInt_lt (by
    have := u.rand.toInt_lt
    have := u.rand.le_toInt
    omega)
  have hcurtime : (printInt u.curtime.toNat).length < 19 + 3 := length_printInt_lt (by
    have := u.curtime.toNat_lt
    omega)
  have hport : (printInt u.port.toNat).length < 4 + 3 := length_printInt_lt (by
    have := u.port.toNat_lt
    omega)
  simp only [genApplicationUniqueIdentifier, List.length_append, List.length_cons, appidSize]
  omega

theorem isSpace_printInt (i : Int) : ∀ b ∈ printInt i, isSpace b = false := by
  intro b hb
  rcases mem_printInt hb with rfl | hd
  · decide
  · exact isSpace_of_isDigit hd

theorem isSpace_appId (u : Uuid) : ∀ b ∈ genApplicationUniqueIdentifier u, isSpace b = false := by
  intro b hb
  simp only [genApplicationUniqueIdentifier, List.mem_append, List.mem_cons] at hb
  rcases hb with hb | rfl | hb | rfl | hb
  · exact isSpace_printInt _ b hb
  · decide
  · exact isSpace_printInt _ b hb
  · decide
  · exact isSpace_printInt _ b hb

theorem appId_ne_nil (u : Uuid) : genApplicationUniqueIdentifier u ≠ [] :=
  List.append_ne_nil_of_right_ne_nil _ (List.cons_ne_nil _ _)

namespace Identity

variable {who who' : Identity Addr}

theorem sscanf_line (who : Identity Addr) :
    sscanf who.line = some (ivymajorVersion, who.uuid.port, who.appId,
      who.name.dropWhile isSpace) := by
  have hid : ∀ b ∈ genApplicationUniqueIdentifier who.uuid, (!isSpace b) = true := fun b hb => by
    rw [isSpace_appId who.uuid b hb]
    rfl
  obtain ⟨htake, hdrop⟩ := takeWhile_append_of_all (t := 32 :: who.name) hid
    fun b hb => Option.some.inj hb ▸ rfl
  have hskip : (32 :: (genApplicationUniqueIdentifier who.uuid ++ 32 :: who.name)).dropWhile
      isSpace = genApplicationUniqueIdentifier who.uuid ++ 32 :: who.name := by
    obtain ⟨b, rest, hb⟩ := List.exists_cons_of_ne_nil (appId_ne_nil who.uuid)
    have hfirst := isSpace_appId who.uuid b (hb ▸ List.mem_cons_self)
    rw [hb, List.dropWhile_cons_of_pos rfl, List.cons_append,
      List.dropWhile_cons_of_neg (Bool.eq_false_iff.mp hfirst)]
  have hname : (who.name.dropWhile isSpace).takeWhile (· ≠ lf) = who.name.dropWhile isSpace := by
    rw [List.takeWhile_eq_self_iff]
    intro b hb
    exact decide_eq_true (ne_of_mem_of_not_mem ((List.dropWhile_sublist _).subset hb)
      who.lf_notMem)
  have hport : scanInt (32 :: (printInt who.uuid.port.toNat ++
      32 :: (genApplicationUniqueIdentifier who.uuid ++ 32 :: who.name))) =
        some ((who.uuid.port.toNat : Int),
          32 :: (genApplicationUniqueIdentifier who.uuid ++ 32 :: who.name)) :=
    scanInt_printed _ (by decide) _
  have hblank : (32 :: who.name).dropWhile isSpace = who.name.dropWhile isSpace :=
    List.dropWhile_cons_of_pos rfl
  rw [sscanf, line, announcement, scanInt_printed _ (by decide), Option.bind_some, hport]
  simp only [Option.map_some, hskip, htake, hdrop, hblank, hname, toInt32_strtol,
    toUInt16_strtoul]
  rfl

theorem notMem_line {c : UInt8} (hspace : c ≠ 32) (hminus : c ≠ 45) (hcolon : c ≠ 58)
    (hd : isDigit c = false) (hname : c ∉ who.name) : c ∉ who.line := by
  have hprinted := notMem_printInt hminus hd
  simp only [line, announcement, genApplicationUniqueIdentifier, List.mem_append, List.mem_cons,
    not_or]
  exact ⟨hprinted _, hspace, hprinted _, hspace,
    ⟨hprinted _, hcolon, hprinted _, hcolon, hprinted _⟩, hspace, hname⟩

def datagram (who : Identity Addr) : Supervision.Datagram Addr where
  sender := who.addr
  bytes := who.line ++ [lf]
  length_le := by
    rw [List.length_append]
    exact who.length_le

theorem isLine (who : Identity Addr) : Supervision.IsLine who.line who.datagram :=
  ⟨notMem_line (by decide) (by decide) (by decide) (by decide) who.lf_notMem,
    notMem_line (by decide) (by decide) (by decide) (by decide) who.zero_notMem, rfl⟩

def attempt (who : Identity Addr) : Attempt Addr :=
  ⟨some who.addr, who.uuid.port, who.appId, who.name.dropWhile isSpace⟩

theorem broadcastReceive_line (who : Identity Addr) {who' : Identity Addr}
    (hname : who'.NameFits) : broadcastReceive who.appId who'.line (some who'.addr) =
      some (if who'.uuid = who.uuid then none else some who'.attempt) := by
  have hid := length_appId_lt who'.uuid
  have hsame : who'.appId = who.appId ↔ who'.uuid = who.uuid :=
    genApplicationUniqueIdentifier_injective.eq_iff
  rw [broadcastReceive, who'.sscanf_line]
  dsimp only
  rw [if_pos ⟨hid, hname⟩, if_neg (not_not_intro rfl), ite_cond_congr (propext hsame)]
  rfl

theorem broadcastReceive_overrun (applicationId : Str) (h : ¬ who.NameFits) (remote : Option Addr) :
    broadcastReceive applicationId who.line remote = none := by
  rw [broadcastReceive, who.sscanf_line]
  exact if_neg fun hfits => h hfits.2

end Identity

section Network

variable [DecidableEq κ]

/-- The applications of a bus: those that listen, the datagrams that they have not read, and the
applications whose announcement was sent to them, and to anyone. -/
structure Net (κ Addr : Type) where
  node : κ → Option (Node Addr)
  queue : κ → List (Supervision.Datagram Addr)
  heard : κ → List κ
  announced : List κ

def Net.init : Net κ Addr := ⟨fun _ => none, fun _ => [], fun _ => [], []⟩

def Net.put (s : Net κ Addr) (a : κ) (n : Node Addr) (queue : List (Supervision.Datagram Addr)) :
    Net κ Addr :=
  { s with node := Function.update s.node a (some n), queue := Function.update s.queue a queue }

def Net.tell (s : Net κ Addr) (a : κ) (d : Supervision.Datagram Addr) : Net κ Addr :=
  { s with
    queue := fun b => if (s.node b).isSome then s.queue b ++ [d] else s.queue b
    heard := fun b => if (s.node b).isSome then s.heard b ++ [a] else s.heard b
    announced := s.announced ++ [a] }

/-- `IvyStart` listens first and announces then; a datagram may overtake another one. -/
inductive Act (κ : Type)
  | listen (a : κ)
  | announce (a : κ)
  | read (a : κ) (i : Nat)

def step (who : κ → Identity Addr) (s : Net κ Addr) : Act κ → Option (Net κ Addr)
  | .listen a =>
    if (s.node a).isSome then some s
    else some (s.put a ⟨Supervision.socketBroadcastCreate, []⟩ [])
  | .announce a => some (if (s.node a).isSome then s.tell a (who a).datagram else s)
  | .read a i =>
    match s.node a, (s.queue a)[i]? with
    | some n, some d =>
      (n.receive (who a).appId d).map fun n => s.put a n ((s.queue a).eraseIdx i)
    | _, _ => some s

def Net.attempts (s : Net κ Addr) (a : κ) : List (Attempt Addr) :=
  (s.node a).elim [] Node.attempts

def others (who : κ → Identity Addr) (a : κ) (bs : List κ) : List (Attempt Addr) :=
  (bs.filter fun b => (who b).uuid ≠ (who a).uuid).map fun b => (who b).attempt

structure Node.Inv (who : κ → Identity Addr) (s : Net κ Addr) (a : κ) (n : Node Addr) : Prop where
  channel : Supervision.Inv n.channel
  held : n.channel.client.held = []
  tried : ∃ bs cs, s.queue a = bs.map (fun b => (who b).datagram) ∧
    n.attempts = others who a cs ∧ (bs ++ cs).Perm (s.heard a)

structure Net.Inv (who : κ → Identity Addr) (s : Net κ Addr) : Prop where
  node : ∀ a n, s.node a = some n → n.Inv who s a
  silent : ∀ a, s.node a = none → s.queue a = [] ∧ s.heard a = []
  listens : ∀ a ∈ s.announced, (s.node a).isSome
  told : ∀ a, ∀ b ∈ s.heard a, b ∈ s.announced
  met : ∀ a ∈ s.announced, ∀ b ∈ s.announced, b ∈ s.heard a ∨ a ∈ s.heard b

variable {who : κ → Identity Addr} {s s' : Net κ Addr} {a b : κ} {n n' : Node Addr}

omit [DecidableEq κ] in
theorem inv_init : Net.Inv who (Net.init : Net κ Addr) :=
  ⟨nofun, fun _ _ => ⟨rfl, rfl⟩, List.forall_mem_nil _, fun _ => List.forall_mem_nil _,
    List.forall_mem_nil _⟩

omit [DecidableEq κ] in
theorem others_append (a : κ) (bs cs : List κ) :
    others who a (bs ++ cs) = others who a bs ++ others who a cs := by
  rw [others, List.filter_append, List.map_append]
  rfl

theorem Node.receive_line (hchannel : Supervision.Inv n.channel)
    (hheld : n.channel.client.held = []) (applicationId : Str) (him : Identity Addr) :
    ∃ channel, Supervision.Inv channel ∧ channel.client.held = [] ∧
      n.receive applicationId him.datagram =
        (broadcastReceive applicationId him.line (some him.addr)).map fun attempt =>
          ⟨channel, n.attempts ++ attempt.toList⟩ := by
  obtain ⟨channel, hnext⟩ : ∃ channel, Supervision.next n.channel him.datagram = some channel :=
    ⟨_, hchannel.next_eq⟩
  obtain ⟨hlf, hzero, hbytes⟩ := him.isLine
  have hne : him.datagram.bytes ≠ [] := by
    rw [hbytes]
    exact List.append_ne_nil_of_right_ne_nil _ (List.cons_ne_nil _ _)
  have hroom := hchannel.room hheld him.datagram
  obtain ⟨hinv, -, hrest⟩ := hchannel.next hne hnext
  have hcalls := hchannel.next_line him.isLine hnext
  rw [if_pos hroom, hheld, List.nil_append, asCString_of_notMem hzero] at hcalls
  rw [hheld, Supervision.recvfrom, List.take_of_length_le hroom, hbytes, feed_append,
    feed_of_notMem _ hlf, feed_delimiter] at hrest
  refine ⟨channel, hinv, hrest, ?_⟩
  rw [Node.receive, hnext, Option.bind_some, hcalls, List.drop_left, List.mapM_cons, List.mapM_nil]
  change Option.map _ ((broadcastReceive applicationId him.line (some him.addr)).bind fun x =>
    some [x]) = _
  cases broadcastReceive applicationId him.line (some him.addr) with
  | none => rfl
  | some attempt => cases attempt <;> rfl

theorem Node.receive_datagram (hchannel : Supervision.Inv n.channel)
    (hheld : n.channel.client.held = []) (me : Identity Addr) {him : Identity Addr}
    (hname : him.NameFits) : ∃ n', n.receive me.appId him.datagram = some n' ∧
      Supervision.Inv n'.channel ∧ n'.channel.client.held = [] ∧
        n'.attempts = n.attempts ++ if him.uuid = me.uuid then [] else [him.attempt] := by
  obtain ⟨channel, hinv, hrest, hreceive⟩ := Node.receive_line hchannel hheld me.appId him
  rw [Identity.broadcastReceive_line me hname, Option.map_some] at hreceive
  refine ⟨_, hreceive, hinv, hrest, ?_⟩
  split <;> rfl

section Put

variable {q : List (Supervision.Datagram Addr)}

theorem Net.put_of_ne (s : Net κ Addr) (n : Node Addr) (hne : b ≠ a) :
    (s.put a n q).node b = s.node b ∧ (s.put a n q).queue b = s.queue b :=
  ⟨Function.update_of_ne hne .., Function.update_of_ne hne ..⟩

theorem Net.put_self (s : Net κ Addr) (a : κ) (n : Node Addr) :
    (s.put a n q).node a = some n ∧ (s.put a n q).queue a = q :=
  ⟨Function.update_self .., Function.update_self ..⟩

theorem Net.Inv.put (h : s.Inv who) (hn : n.Inv who (s.put a n q) a) :
    (s.put a n q).Inv who := by
  refine ⟨fun b n' hb => ?_, fun b hb => ?_, fun b hb => ?_, h.told, h.met⟩
  · by_cases hba : b = a
    · subst hba
      rw [(s.put_self b n).1] at hb
      exact Option.some.inj hb ▸ hn
    · obtain ⟨hnode, hqueue⟩ := s.put_of_ne (q := q) n hba
      rw [hnode] at hb
      obtain ⟨bs, cs, hbs, hcs, hperm⟩ := (h.node b n' hb).tried
      exact ⟨(h.node b n' hb).channel, (h.node b n' hb).held, bs, cs, hqueue.trans hbs, hcs, hperm⟩
  · by_cases hba : b = a
    · subst hba
      rw [(s.put_self b n).1] at hb
      cases hb
    · obtain ⟨hnode, hqueue⟩ := s.put_of_ne (q := q) n hba
      rw [hnode] at hb
      exact ⟨hqueue.trans (h.silent b hb).1, (h.silent b hb).2⟩
  · by_cases hba : b = a
    · subst hba
      rw [(s.put_self b n).1]
      rfl
    · rw [(s.put_of_ne n hba).1]
      exact h.listens b hb

end Put

theorem Net.Inv.listen (h : s.Inv who) (a : κ) :
    ∃ s', step who s (.listen a) = some s' ∧ s'.Inv who := by
  rw [step]
  split
  · exact ⟨s, rfl, h⟩
  · rename_i ha
    refine ⟨_, rfl, h.put ⟨Supervision.inv_init, rfl, [], [], (s.put_self ..).2, rfl, ?_⟩⟩
    change List.Perm [] (s.heard a)
    rw [(h.silent a (Option.not_isSome_iff_eq_none.mp ha)).2]

omit [DecidableEq κ] in
theorem Net.Inv.tell (h : s.Inv who) (ha : (s.node a).isSome) :
    (s.tell a (who a).datagram).Inv who := by
  have hheard : ∀ b, (s.node b).isSome →
      (s.tell a (who a).datagram).heard b = s.heard b ++ [a] := fun b hb => if_pos hb
  have hkept : ∀ b, s.heard b ⊆ (s.tell a (who a).datagram).heard b := by
    intro b
    by_cases hb : (s.node b).isSome
    · rw [hheard b hb]
      exact List.subset_append_left ..
    · exact (if_neg hb : (s.tell a (who a).datagram).heard b = s.heard b) ▸ List.Subset.refl _
  have hnew : ∀ b ∈ s.announced ++ [a], a ∈ (s.tell a (who a).datagram).heard b := by
    intro b hb
    have hsome : (s.node b).isSome := by
      rcases List.mem_append.mp hb with hb | hb
      · exact h.listens b hb
      · exact List.mem_singleton.mp hb ▸ ha
    rw [hheard b hsome]
    exact List.mem_append_right _ (List.mem_singleton_self a)
  refine ⟨fun b n hb => ?_, fun b hb => ?_, fun b hb => ?_, fun c b hb => ?_,
    fun b hb c hc => ?_⟩
  · have hsome : (s.node b).isSome := (show s.node b = some n from hb) ▸ rfl
    obtain ⟨bs, cs, hbs, hcs, hperm⟩ := (h.node b n hb).tried
    refine ⟨(h.node b n hb).channel, (h.node b n hb).held, bs ++ [a], cs, ?_, hcs, ?_⟩
    · rw [List.map_append, ← hbs]
      exact if_pos hsome
    · rw [hheard b hsome, List.append_assoc]
      exact (List.perm_append_comm.append_left bs).trans
        (List.append_assoc bs cs [a] ▸ hperm.append_right [a])
  · have hnone : ¬ (s.node b).isSome := Option.not_isSome_iff_eq_none.mpr hb
    exact ⟨(if_neg hnone).trans (h.silent b hb).1, (if_neg hnone).trans (h.silent b hb).2⟩
  · rcases List.mem_append.mp hb with hb | hb
    · exact h.listens b hb
    · exact List.mem_singleton.mp hb ▸ ha
  · by_cases hc : (s.node c).isSome
    · rw [hheard c hc] at hb
      exact (List.mem_append.mp hb).elim (fun hb => List.mem_append_left _ (h.told c b hb))
        (List.mem_append_right _)
    · have hsame : (s.tell a (who a).datagram).heard c = s.heard c := if_neg hc
      exact List.mem_append_left _ (h.told c b (hsame ▸ hb))
  · rcases List.mem_append.mp hc with hin | hlast
    · rcases List.mem_append.mp hb with hin' | hlast'
      · exact (h.met b hin' c hin).imp (fun hx => hkept b hx) fun hx => hkept c hx
      · exact .inr (List.mem_singleton.mp hlast' ▸ hnew c hc)
    · exact .inl (List.mem_singleton.mp hlast ▸ hnew b hb)

theorem Net.Inv.announce (h : s.Inv who) (a : κ) :
    ∃ s', step who s (.announce a) = some s' ∧ s'.Inv who := by
  refine ⟨_, rfl, ?_⟩
  split
  · rename_i ha
    exact h.tell ha
  · exact h

theorem Net.Inv.read (h : s.Inv who) (hnames : ∀ a, (who a).NameFits) (a : κ) (i : Nat) :
    ∃ s', step who s (.read a i) = some s' ∧ s'.Inv who := by
  rw [step]
  split
  · rename_i n d hn hd
    have hnode := h.node a n hn
    obtain ⟨bs, cs, hbs, hcs, hperm⟩ := hnode.tried
    rw [hbs, List.getElem?_map] at hd
    obtain ⟨b, hb, rfl⟩ := Option.map_eq_some_iff.mp hd
    obtain ⟨n', hn', hchannel, hheld, hattempts⟩ :=
      Node.receive_datagram hnode.channel hnode.held (who a) (hnames b)
    rw [hn']
    refine ⟨_, rfl, h.put ⟨hchannel, hheld, bs.eraseIdx i, cs ++ [b], ?_, ?_, ?_⟩⟩
    · rw [(s.put_self ..).2, hbs, List.eraseIdx_map]
    · rw [hattempts, hcs, others_append]
      by_cases hsame : (who b).uuid = (who a).uuid <;> simp [others, hsame]
    · obtain ⟨hlt, rfl⟩ := List.getElem?_eq_some_iff.mp hb
      have hpicked : (bs[i] :: bs.eraseIdx i).Perm bs := List.getElem_cons_eraseIdx_perm hlt
      have hmoved : (bs.eraseIdx i ++ (cs ++ [bs[i]])).Perm (bs[i] :: bs.eraseIdx i ++ cs) := by
        rw [← List.append_assoc]
        exact List.perm_append_singleton ..
      exact hmoved.trans ((hpicked.append_right cs).trans hperm)
  · exact ⟨s, rfl, h⟩

theorem Net.Inv.step (h : s.Inv who) (hnames : ∀ a, (who a).NameFits) (act : Act κ) :
    ∃ s', step who s act = some s' ∧ s'.Inv who := by
  cases act with
  | listen a => exact h.listen a
  | announce a => exact h.announce a
  | read a i => exact h.read hnames a i

/-- An application that hears its own announcement overruns the array with a name that is too
long. -/
theorem run_overrun (a : κ) (h : ¬ (who a).NameFits) :
    run (step who) Net.init [.listen a, .announce a, .read a 0] = none := by
  let n : Node Addr := ⟨Supervision.socketBroadcastCreate, []⟩
  let s : Net κ Addr := Net.init.put a n []
  obtain ⟨hnode, hqueue⟩ : s.node a = some n ∧ s.queue a = [] := Net.init.put_self a n
  have hsome : (s.node a).isSome := hnode ▸ rfl
  have hannounce : step who s (.announce a) = some (s.tell a (who a).datagram) :=
    congrArg some (if_pos hsome)
  have htold : (s.tell a (who a).datagram).queue a = [(who a).datagram] := by
    rw [Net.tell]
    dsimp only
    rw [if_pos hsome, hqueue]
    rfl
  have hread : step who (s.tell a (who a).datagram) (.read a 0) = none := by
    obtain ⟨channel, -, -, hreceive⟩ := Node.receive_line (n := n) Supervision.inv_init rfl
      (who a).appId (who a)
    rw [Identity.broadcastReceive_overrun _ h, Option.map_none] at hreceive
    have htells : (s.tell a (who a).datagram).node a = some n := hnode
    rw [step, htells, htold]
    dsimp only [List.getElem?_cons_zero]
    rw [hreceive, Option.map_none]
  change (step who s (.announce a)).bind (run (step who) · [.read a 0]) = none
  rw [hannounce, Option.bind_some, run, hread, Option.bind_none]

omit [DecidableEq κ] in
theorem mem_others {bs : List κ} (hne : (who b).uuid ≠ (who a).uuid) (hb : b ∈ bs) :
    (who b).attempt ∈ others who a bs :=
  List.mem_map.mpr ⟨b, List.mem_filter.mpr ⟨hb, decide_eq_true hne⟩, rfl⟩

omit [DecidableEq κ] in
theorem Net.Inv.attempts (h : s.Inv who) (a : κ) :
    ∃ bs cs, s.queue a = bs.map (fun b => (who b).datagram) ∧ s.attempts a = others who a cs ∧
      (bs ++ cs).Perm (s.heard a) := by
  rw [Net.attempts]
  cases ha : s.node a with
  | none =>
    obtain ⟨hqueue, hheard⟩ := h.silent a ha
    exact ⟨[], [], hqueue, rfl, List.Perm.of_eq hheard.symm⟩
  | some n => exact (h.node a n ha).tried

omit [DecidableEq κ] in
theorem Net.Inv.tried (h : s.Inv who) (ha : s.queue a = []) :
    (s.attempts a).Perm (others who a (s.heard a)) := by
  obtain ⟨bs, cs, hbs, hcs, hperm⟩ := h.attempts a
  obtain rfl := List.map_eq_nil_iff.mp (hbs.symm.trans ha)
  rw [hcs]
  exact (hperm.filter _).map _

/-- What has become of the announcements. Every application tries each one that was sent while it
listened exactly once, to the address and the port of the application that made it, and its own
announcement never. Of two applications that have both announced, one tries the other. -/
structure Net.Tried (who : κ → Identity Addr) (s : Net κ Addr) : Prop where
  once : ∀ a, ∃ read, s.attempts a = others who a read ∧ read.Subperm (s.heard a)
  every : ∀ a, s.queue a = [] → (s.attempts a).Perm (others who a (s.heard a))
  meets : ∀ a b, s.queue a = [] → s.queue b = [] → a ∈ s.announced → b ∈ s.announced →
    (who a).uuid ≠ (who b).uuid → (who b).attempt ∈ s.attempts a ∨ (who a).attempt ∈ s.attempts b

/-- No array is overrun, and all announcements are tried, in every run if and only if every name
fits. -/
theorem announcements_tried (who : κ → Identity Addr) :
    (∀ acts, ∃ s, run (step who) Net.init acts = some s ∧ s.Tried who) ↔
      ∀ a, (who a).NameFits := by
  constructor
  · intro hall a
    by_contra hname
    obtain ⟨s, hs, -⟩ := hall [.listen a, .announce a, .read a 0]
    rw [run_overrun a hname] at hs
    cases hs
  intro hnames acts
  obtain ⟨s, hs, h⟩ := run_defined (Q := fun _ _ => True)
    (fun s act (h : s.Inv who) _ => h.step hnames act) inv_init
    (along_of_forall (fun _ _ => trivial) Net.init acts)
  refine ⟨s, hs, fun a => ?_, fun a => h.tried, fun a b ha hb hin hin' hne => ?_⟩
  · obtain ⟨bs, cs, -, hcs, hperm⟩ := h.attempts a
    exact ⟨cs, hcs, (List.sublist_append_right bs cs).subperm.trans hperm.subperm⟩
  · refine (h.met a hin b hin').imp (fun hheard => ?_) fun hheard => ?_
    · exact (h.tried ha).symm.subset (mem_others hne.symm hheard)
    · exact (h.tried hb).symm.subset (mem_others hne hheard)

end Network

end IvyBus.Discovery
