import IvyBus.Interest
import IvyBus.Lib.Run

namespace IvyBus.Interest

open Lib Fifo Socket
open Loop (fdSet fdClr narrow)

def Congested (ch : Channel) : Prop :=
  ∃ client ifb, ch.client = some client ∧ client.ifb = some ifb

/-- The invariant of the channels: they have different nodes and descriptors, and exactly those
whose client has a FIFO are to be written to. -/
structure Sound (s : State) : Prop where
  addrs_nodup : s.addrs.Nodup
  fds_nodup : s.fds.Nodup
  fresh : ∀ addr ∈ s.addrs, addr < s.brk
  within : ∀ fd ∈ s.wrdyFds, fd ∈ s.fds
  interest : ∀ ch ∈ s.channelsList, ch.fd ∈ s.wrdyFds ↔ Congested ch

section Sets

theorem mem_fdSet {fd fd' : Nat} {set : List Nat} : fd ∈ fdSet fd' set ↔ fd = fd' ∨ fd ∈ set :=
  List.mem_cons

theorem mem_fdClr {fd fd' : Nat} {set : List Nat} : fd ∈ fdClr fd' set ↔ fd ∈ set ∧ fd ≠ fd' := by
  rw [fdClr, List.mem_filter, decide_eq_true_eq]

theorem mem_narrow {fd : Nat} {given answer : List Nat} (h : fd ∈ narrow given answer) :
    fd ∈ given :=
  (List.mem_filter.mp h).1

end Sets

section Modify

variable {s : State} {channel : Nat} {f : Channel → Channel} {ch ch' : Channel}

theorem addrs_modify (hf : ∀ ch, (f ch).addr = ch.addr) : (s.modify channel f).addrs = s.addrs := by
  rw [State.addrs, State.modify, List.map_map]
  apply List.map_congr_left
  intro ch _
  rw [Function.comp_apply]
  split
  · exact hf ch
  · rfl

theorem fds_modify (hf : ∀ ch, (f ch).fd = ch.fd) : (s.modify channel f).fds = s.fds := by
  rw [State.fds, State.modify, List.map_map]
  apply List.map_congr_left
  intro ch _
  rw [Function.comp_apply]
  split
  · exact hf ch
  · rfl

theorem mem_modify (h : ch' ∈ (s.modify channel f).channelsList) :
    ∃ ch ∈ s.channelsList, ch' = if ch.addr = channel then f ch else ch := by
  obtain ⟨ch, hch, rfl⟩ := List.mem_map.mp h
  exact ⟨ch, hch, rfl⟩

theorem Sound.eq_of_addr (h : Sound s) (hch : ch ∈ s.channelsList) (hch' : ch' ∈ s.channelsList)
    (heq : ch.addr = ch'.addr) : ch = ch' :=
  List.inj_on_of_nodup_map h.addrs_nodup hch hch' heq

theorem Sound.eq_of_fd (h : Sound s) (hch : ch ∈ s.channelsList) (hch' : ch' ∈ s.channelsList)
    (heq : ch.fd = ch'.fd) : ch = ch' :=
  List.inj_on_of_nodup_map h.fds_nodup hch hch' heq

theorem findChannel_eq_some (h : s.findChannel channel = some ch) :
    ch ∈ s.channelsList ∧ ch.addr = channel :=
  ⟨List.mem_of_find?_eq_some h, by simpa using List.find?_some h⟩

theorem Sound.findChannel (h : Sound s) (hch : ch ∈ s.channelsList) :
    s.findChannel ch.addr = some ch := by
  cases hfind : s.findChannel ch.addr with
  | none =>
    have hne := List.find?_eq_none.mp hfind ch hch
    simp at hne
  | some ch' =>
    obtain ⟨hch', haddr⟩ := findChannel_eq_some hfind
    rw [h.eq_of_addr hch' hch haddr]

theorem Sound.findChannel_of_mem (h : Sound s) {addr : Nat} (hmem : addr ∈ s.addrs) :
    ∃ ch ∈ s.channelsList, ch.addr = addr ∧ s.findChannel addr = some ch := by
  obtain ⟨ch, hch, rfl⟩ := List.mem_map.mp hmem
  exact ⟨ch, hch, rfl, h.findChannel hch⟩

end Modify

/-- What code outside of the loop does to the channels: none goes away or changes its descriptor,
and none that is to be written to is forgotten. -/
structure Acts (s s' : State) : Prop where
  addrs : s.addrs ⊆ s'.addrs
  wrdyFds : s.wrdyFds ⊆ s'.wrdyFds
  old : ∀ ch' ∈ s'.channelsList, ch'.addr ∈ s.addrs →
    ∃ ch ∈ s.channelsList, ch.addr = ch'.addr ∧ ch.fd = ch'.fd

theorem Acts.refl (s : State) : Acts s s :=
  ⟨List.Subset.refl _, List.Subset.refl _, fun ch hch _ => ⟨ch, hch, rfl, rfl⟩⟩

theorem Acts.trans {s s' s'' : State} (h : Acts s s') (h' : Acts s' s'') : Acts s s'' := by
  refine ⟨List.Subset.trans h.addrs h'.addrs, List.Subset.trans h.wrdyFds h'.wrdyFds, ?_⟩
  intro ch'' hch'' haddr
  obtain ⟨ch', hch', haddr', hfd'⟩ := h'.old ch'' hch'' (h.addrs haddr)
  obtain ⟨ch, hch, heq, hfd⟩ := h.old ch' hch' (haddr' ▸ haddr)
  exact ⟨ch, hch, heq.trans haddr', hfd.trans hfd'⟩

theorem Acts.modify (s : State) (channel : Nat) (f : Channel → Channel)
    (haddr : ∀ ch, (f ch).addr = ch.addr) (hfd : ∀ ch, (f ch).fd = ch.fd) {wrdyFds : List Nat}
    (hwrdy : s.wrdyFds ⊆ wrdyFds) : Acts s { s.modify channel f with wrdyFds := wrdyFds } := by
  refine ⟨(addrs_modify haddr).symm ▸ List.Subset.refl _, hwrdy, fun ch' hch' _ => ?_⟩
  obtain ⟨ch, hch, rfl⟩ := mem_modify hch'
  refine ⟨ch, hch, ?_⟩
  split
  · exact ⟨(haddr ch).symm, (hfd ch).symm⟩
  · exact ⟨rfl, rfl⟩

section Update

variable {s : State} {ch : Channel} {client : Client}

theorem Sound.update (h : Sound s) (hch : ch ∈ s.channelsList) (client : Client)
    {wrdyFds : List Nat} (hothers : ∀ fd, fd ≠ ch.fd → (fd ∈ wrdyFds ↔ fd ∈ s.wrdyFds))
    (hself : ch.fd ∈ wrdyFds ↔ client.ifb.isSome = true) :
    Sound { s.setClient ch.addr client with wrdyFds := wrdyFds } := by
  have haddrs : (s.setClient ch.addr client).addrs = s.addrs := addrs_modify fun _ => rfl
  have hfds : (s.setClient ch.addr client).fds = s.fds := fds_modify fun _ => rfl
  refine ⟨haddrs.symm ▸ h.addrs_nodup, hfds.symm ▸ h.fds_nodup, ?_, ?_, ?_⟩
  · change ∀ addr ∈ (s.setClient ch.addr client).addrs, addr < s.brk
    rw [haddrs]
    exact h.fresh
  · intro fd hfd
    change fd ∈ (s.setClient ch.addr client).fds
    rw [hfds]
    by_cases heq : fd = ch.fd
    · exact heq ▸ List.mem_map_of_mem hch
    · exact h.within fd ((hothers fd heq).mp hfd)
  · intro ch' hch'
    obtain ⟨old, hold, rfl⟩ := mem_modify hch'
    split
    next haddr =>
      cases h.eq_of_addr hold hch haddr
      refine hself.trans ?_
      rw [Option.isSome_iff_exists]
      constructor
      · rintro ⟨ifb, hifb⟩
        exact ⟨client, ifb, rfl, hifb⟩
      · rintro ⟨client', ifb, hclient, hifb⟩
        cases hclient
        exact ⟨ifb, hifb⟩
    next haddr =>
      have hfd : old.fd ≠ ch.fd := fun heq =>
        haddr (congrArg Channel.addr (h.eq_of_fd hold hch heq))
      exact (hothers old.fd hfd).trans (h.interest old hold)

theorem Sound.congest (h : Sound s) (hch : ch ∈ s.channelsList) (client : Client) (tail : Str) :
    Sound (congest s ch client tail) :=
  h.update hch { client with ifb := some (ivyFifoWrite ivyFifoNew tail) }
    (fun _ hne => mem_fdSet.trans (or_iff_right hne))
    ⟨fun _ => rfl, fun _ => mem_fdSet.mpr (.inl rfl)⟩

theorem Sound.setClient (h : Sound s) (hch : ch ∈ s.channelsList) {client client' : Client}
    (hclient : ch.client = some client) (hsame : client'.ifb.isSome = client.ifb.isSome) :
    Sound (s.setClient ch.addr client') := by
  refine h.update hch client' (fun _ _ => Iff.rfl) ((h.interest ch hch).trans ?_)
  rw [hsame, Option.isSome_iff_exists]
  constructor
  · rintro ⟨_, ifb, heq, hifb⟩
    cases hclient.symm.trans heq
    exact ⟨ifb, hifb⟩
  · rintro ⟨ifb, hifb⟩
    exact ⟨client, ifb, hclient, hifb⟩

theorem Acts.setClient (s : State) (channel : Nat) (client : Client) :
    Acts s (s.setClient channel client) :=
  Acts.modify s channel (fun ch => { ch with client := some client }) (fun _ => rfl) (fun _ => rfl)
    (List.Subset.refl _)

theorem Acts.congest (s : State) (ch : Channel) (client : Client) (tail : Str) :
    Acts s (congest s ch client tail) :=
  Acts.modify s ch.addr
    (fun ch =>
      { ch with client := some { client with ifb := some (ivyFifoWrite ivyFifoNew tail) } })
    (fun _ => rfl) (fun _ => rfl) fun _ h => mem_fdSet.mpr (.inr h)

end Update

section Outside

variable {s s' : State}

theorem bufferizedSocketSendRaw_cases (s : State) (ch : Channel) (client : Client) (buffer : Str)
    (r : SendResult) :
    (∃ client' : Client, client'.ifb.isSome = client.ifb.isSome ∧
      bufferizedSocketSendRaw s ch client buffer r = s.setClient ch.addr client') ∨
    ∃ client' tail, bufferizedSocketSendRaw s ch client buffer r = congest s ch client' tail := by
  rw [bufferizedSocketSendRaw]
  split
  next ifb hifb => exact .inl ⟨_, by rw [hifb]; rfl, rfl⟩
  next hifb =>
    let sent : Client :=
      { client with kernel := client.kernel ++ buffer.take (r.taken buffer.length) }
    by_cases hall : r.ret buffer.length = buffer.length
    · exact .inl ⟨sent, rfl, if_pos hall⟩
    rw [if_neg hall]
    by_cases herr : r.ret buffer.length = -1
    · rw [if_pos herr]
      by_cases hblock : r = .wouldBlock
      · rw [if_pos hblock]
        exact .inr ⟨_, _, rfl⟩
      · rw [if_neg hblock]
        exact .inl ⟨sent, rfl, rfl⟩
    · rw [if_neg herr]
      exact .inr ⟨_, _, rfl⟩

theorem Sound.socketSendRaw (h : Sound s) (channel : Nat) (buffer : Str) (r : SendResult) :
    Sound (socketSendRaw s channel buffer r) ∧ Acts s (socketSendRaw s channel buffer r) := by
  rw [Interest.socketSendRaw]
  split
  next => exact ⟨h, Acts.refl s⟩
  next ch hfind =>
    obtain ⟨hch, _⟩ := findChannel_eq_some hfind
    cases hclient : ch.client with
    | none => exact ⟨h, Acts.refl s⟩
    | some client =>
      rw [Option.elim_some]
      obtain ⟨client', hsame, heq⟩ | ⟨client', tail, heq⟩ :=
        bufferizedSocketSendRaw_cases s ch client buffer r
      · rw [heq]
        exact ⟨h.setClient hch hclient hsame, Acts.setClient s ch.addr client'⟩
      · rw [heq]
        exact ⟨h.congest hch client' tail, Acts.congest s ch client' tail⟩

theorem Sound.ivyChannelRemove (h : Sound s) (channel : Nat) :
    Sound (ivyChannelRemove s channel) := by
  have haddrs : (Interest.ivyChannelRemove s channel).addrs = s.addrs := addrs_modify fun _ => rfl
  have hfds : (Interest.ivyChannelRemove s channel).fds = s.fds := fds_modify fun _ => rfl
  refine ⟨haddrs.symm ▸ h.addrs_nodup, hfds.symm ▸ h.fds_nodup, haddrs.symm ▸ h.fresh,
    hfds.symm ▸ h.within, fun ch' hch' => ?_⟩
  obtain ⟨ch, hch, rfl⟩ := mem_modify hch'
  split
  · exact h.interest ch hch
  · exact h.interest ch hch

theorem Sound.addNew (h : Sound s) {fd : Nat} {client : Option Client}
    (hclient : ∀ c ∈ client, c.ifb = none) (hadd : addNew s fd client = some s') :
    Sound s' ∧ Acts s s' := by
  rw [Interest.addNew] at hadd
  split at hadd
  next => cases hadd
  next hnew =>
    cases hadd
    have hbrk : s.brk ∉ s.addrs := fun hmem => Nat.lt_irrefl _ (h.fresh _ hmem)
    refine ⟨⟨?_, ?_, ?_, ?_, ?_⟩, ?_, ?_, ?_⟩
    · exact List.nodup_cons.mpr ⟨hbrk, h.addrs_nodup⟩
    · exact List.nodup_cons.mpr ⟨hnew, h.fds_nodup⟩
    · exact List.forall_mem_cons.mpr
        ⟨Nat.lt_succ_self _, fun addr hmem => Nat.lt_succ_of_lt (h.fresh addr hmem)⟩
    · exact fun fd' hmem => List.mem_cons_of_mem _ (h.within fd' hmem)
    · apply List.forall_mem_cons.mpr ⟨?_, h.interest⟩
      refine iff_of_false (fun hmem => hnew (h.within fd hmem)) ?_
      rintro ⟨c, ifb, hc, hifb⟩
      rw [hclient c hc] at hifb
      cases hifb
    · exact List.subset_cons_self ..
    · exact List.Subset.refl _
    · intro ch' hch' haddr
      obtain rfl | hmem := List.mem_cons.mp hch'
      · exact absurd haddr hbrk
      · exact ⟨ch', hmem, rfl, rfl⟩

theorem Sound.perform (h : Sound s) {op : Op} (hop : perform s op = some s') :
    Sound s' ∧ Acts s s' := by
  cases op with
  | accept fd => exact h.addNew (fun c hc => by cases hc; rfl) hop
  | connect fd => exact h.addNew (fun c hc => by cases hc; rfl) hop
  | add fd => exact h.addNew (fun c hc => by cases hc) hop
  | remove channel =>
    cases hop
    exact ⟨h.ivyChannelRemove channel,
      Acts.modify s channel (fun ch => { ch with tobedeleted := true }) (fun _ => rfl)
        (fun _ => rfl) (List.Subset.refl _)⟩
  | send channel text r =>
    cases hop
    exact h.socketSendRaw channel text r
  | sendWithId channel id body r1 r2 =>
    cases hop
    obtain ⟨hid, hacts⟩ := h.socketSendRaw channel id r1
    obtain ⟨hbody, hacts'⟩ := hid.socketSendRaw channel body r2
    exact ⟨hbody, hacts.trans hacts'⟩

end Outside

section Inside

variable {s s' : State} {ch ch' : Channel}

theorem mem_ivyChannelDelete (hne : ch'.addr ≠ ch.addr) :
    ch' ∈ (ivyChannelDelete s ch).channelsList ↔ ch' ∈ s.channelsList :=
  List.mem_eraseP_of_neg (by simpa using hne)

theorem Sound.of_ivyChannelDelete (h : Sound s)
    (hmem : ch' ∈ (ivyChannelDelete s ch).channelsList) :
    ch' ∈ s.channelsList ∧ ch'.addr ≠ ch.addr := by
  refine ⟨List.mem_of_mem_eraseP hmem, fun heq => ?_⟩
  exact notMem_unlink h.addrs_nodup (heq ▸ List.mem_map_of_mem (f := Channel.addr) hmem)

theorem Sound.ivyChannelDelete (h : Sound s) (hch : ch ∈ s.channelsList) :
    Sound (ivyChannelDelete s ch) := by
  have hsub : (Interest.ivyChannelDelete s ch).channelsList.Sublist s.channelsList :=
    List.eraseP_sublist
  refine ⟨h.addrs_nodup.sublist (hsub.map _), h.fds_nodup.sublist (hsub.map _),
    fun addr hmem => h.fresh addr ((hsub.map _).subset hmem), fun fd hmem => ?_, fun ch' hmem => ?_⟩
  · obtain ⟨hwrdy, hne⟩ := mem_fdClr.mp hmem
    obtain ⟨ch', hch', rfl⟩ := List.mem_map.mp (h.within fd hwrdy)
    have haddr : ch'.addr ≠ ch.addr := fun heq =>
      hne (congrArg Channel.fd (h.eq_of_addr hch' hch heq))
    exact List.mem_map_of_mem ((mem_ivyChannelDelete haddr).mpr hch')
  · obtain ⟨hch', haddr⟩ := h.of_ivyChannelDelete hmem
    have hfd : ch'.fd ≠ ch.fd := fun heq => haddr (congrArg Channel.addr (h.eq_of_fd hch' hch heq))
    exact (mem_fdClr.trans (and_iff_left hfd)).trans (h.interest ch' hch')

theorem handleCongestionWrite_cases (s : State) {client : Client} {ifb : IvyFifoBuffer}
    (hclient : ch.client = some client) (hifb : client.ifb = some ifb) (answers : List SendResult) :
    (∃ client', client'.ifb.isSome = client.ifb.isSome ∧
      handleCongestionWrite s ch answers = some (s.setClient ch.addr client')) ∨
    ∃ client', client'.ifb = none ∧ handleCongestionWrite s ch answers =
      some ((ivyChannelClearWritableEvent s ch).setClient ch.addr client') := by
  rw [handleCongestionWrite, hclient]
  dsimp only
  rw [hifb]
  dsimp only
  by_cases hret : (ivyFifoSendSocket ifb answers).ret = 0
  · rw [if_pos hret]
    exact .inr ⟨_, rfl, rfl⟩
  · rw [if_neg hret]
    exact .inl ⟨_, rfl, rfl⟩

structure Drains (channel : Nat) (s s' : State) : Prop where
  addrs : s'.addrs = s.addrs
  others : ∀ ch' ∈ s'.channelsList, ch'.addr ≠ channel →
    ∃ ch ∈ s.channelsList, ch.addr = ch'.addr ∧ ch.fd = ch'.fd ∧
      (ch.fd ∈ s.wrdyFds → ch.fd ∈ s'.wrdyFds)

theorem Drains.setClient (h : Sound s) (hch : ch ∈ s.channelsList) (client : Client)
    {wrdyFds : List Nat} (hothers : ∀ fd, fd ≠ ch.fd → fd ∈ s.wrdyFds → fd ∈ wrdyFds) :
    Drains ch.addr s { s.setClient ch.addr client with wrdyFds := wrdyFds } := by
  refine ⟨addrs_modify fun _ => rfl, fun ch' hch' hne => ?_⟩
  obtain ⟨old, hold, rfl⟩ := mem_modify hch'
  split at hne
  next haddr => exact absurd haddr hne
  next haddr =>
    rw [if_neg haddr]
    refine ⟨old, hold, rfl, rfl, hothers old.fd fun heq => haddr ?_⟩
    exact congrArg Channel.addr (h.eq_of_fd hold hch heq)

theorem Sound.handleCongestionWrite (h : Sound s) (hch : ch ∈ s.channelsList)
    (hcongested : Congested ch) (answers : List SendResult) :
    ∃ s', handleCongestionWrite s ch answers = some s' ∧ Sound s' ∧ Drains ch.addr s s' := by
  obtain ⟨client, ifb, hclient, hifb⟩ := hcongested
  obtain ⟨client', hsame, heq⟩ | ⟨client', hnone, heq⟩ :=
    handleCongestionWrite_cases s hclient hifb answers
  · exact ⟨_, heq, h.setClient hch hclient hsame, Drains.setClient h hch client' fun _ _ => id⟩
  · refine ⟨_, heq, ?_, ?_⟩
    · refine h.update hch client' (fun fd hne => mem_fdClr.trans (and_iff_left hne)) ?_
      rw [hnone]
      exact iff_of_false (fun hmem => (mem_fdClr.mp hmem).2 rfl) Bool.false_ne_true
    · exact Drains.setClient h hch client' fun fd hne hmem => mem_fdClr.mpr ⟨hmem, hne⟩

end Inside

/-- What the rest of a round relies on: the channels still to be visited are there, and those of
them that `select` found writable are still to be written to. -/
def Ahead (s : State) : Phase → Prop
  | .delete walk => walk.Nodup ∧ walk ⊆ s.addrs
  | .select => True
  | .read wrset => wrset ⊆ s.wrdyFds
  | .write wrset walk => walk.Nodup ∧ walk ⊆ s.addrs ∧
    ∀ ch ∈ s.channelsList, ch.addr ∈ walk → ch.fd ∈ wrset → ch.fd ∈ s.wrdyFds

theorem Ahead.acts {s s' : State} (hacts : Acts s s') {phase : Phase} (h : Ahead s phase) :
    Ahead s' phase := by
  match phase, h with
  | .delete walk, ⟨hnodup, hsub⟩ => exact ⟨hnodup, List.Subset.trans hsub hacts.addrs⟩
  | .select, _ => trivial
  | .read wrset, hsub => exact List.Subset.trans hsub hacts.wrdyFds
  | .write wrset walk, ⟨hnodup, hsub, hready⟩ =>
    refine ⟨hnodup, List.Subset.trans hsub hacts.addrs, fun ch' hch' haddr hfd => ?_⟩
    obtain ⟨ch, hch, haddr', hfd'⟩ := hacts.old ch' hch' (hsub haddr)
    rw [← hfd'] at hfd ⊢
    exact hacts.wrdyFds (hready ch hch (haddr' ▸ haddr) hfd)

structure Inv (m : Machine) : Prop where
  sound : Sound m.state
  ahead : Ahead m.state m.phase

theorem Inv.init : Inv init :=
  ⟨⟨List.nodup_nil, List.nodup_nil, fun _ h => (List.not_mem_nil h).elim,
    fun _ h => (List.not_mem_nil h).elim, fun _ h => (List.not_mem_nil h).elim⟩, trivial⟩

section Step

variable {m m' : Machine}

theorem Inv.visitDelete {s : State} (h : Sound s) {channel : Nat} {walk : List Nat}
    (hahead : Ahead s (.delete (channel :: walk))) :
    ∃ s', visitDelete s channel = some s' ∧ Inv ⟨s', .delete walk⟩ := by
  obtain ⟨hnodup, hsub⟩ := hahead
  obtain ⟨hnew, hrest⟩ := List.nodup_cons.mp hnodup
  obtain ⟨hmem, hwalk⟩ := List.cons_subset.mp hsub
  obtain ⟨ch, hch, rfl, hfind⟩ := h.findChannel_of_mem hmem
  rw [Interest.visitDelete, hfind]
  refine ⟨_, rfl, ?_⟩
  dsimp only
  split
  · refine ⟨h.ivyChannelDelete hch, hrest, fun addr haddr => ?_⟩
    obtain ⟨ch', hch', rfl⟩ := List.mem_map.mp (hwalk haddr)
    have hne : ch'.addr ≠ ch.addr := fun heq => hnew (heq ▸ haddr)
    exact List.mem_map_of_mem ((mem_ivyChannelDelete hne).mpr hch')
  · exact ⟨h, hrest, hwalk⟩

theorem Inv.congested {s : State} (h : Sound s) {wrset walk : List Nat} {channel : Nat}
    (hahead : Ahead s (.write wrset (channel :: walk))) :
    ∃ ch ∈ s.channelsList, ch.addr = channel ∧ s.findChannel channel = some ch ∧
      (ch.fd ∈ wrset → Congested ch) := by
  obtain ⟨_, hsub, hready⟩ := hahead
  obtain ⟨ch, hch, rfl, hfind⟩ := h.findChannel_of_mem (hsub List.mem_cons_self)
  refine ⟨ch, hch, rfl, hfind, fun hfd => ?_⟩
  exact (h.interest ch hch).mp (hready ch hch List.mem_cons_self hfd)

theorem Inv.visitWrite {s : State} (h : Sound s) {wrset walk : List Nat} {channel : Nat}
    (hahead : Ahead s (.write wrset (channel :: walk))) (answers : List SendResult) :
    ∃ s', visitWrite s wrset channel answers = some s' ∧ Inv ⟨s', .write wrset walk⟩ := by
  obtain ⟨ch, hch, rfl, hfind, hcongested⟩ := Inv.congested h hahead
  obtain ⟨hnodup, hsub, hready⟩ := hahead
  obtain ⟨hnew, hrest⟩ := List.nodup_cons.mp hnodup
  have hsub := (List.cons_subset.mp hsub).2
  rw [Interest.visitWrite, hfind, Option.bind_some]
  split
  next hfd =>
    obtain ⟨s', hs', hsound, hdrains⟩ := h.handleCongestionWrite hch (hcongested hfd) answers
    refine ⟨s', hs', hsound, hrest, hdrains.addrs.symm ▸ hsub, fun ch' hch' haddr hfd' => ?_⟩
    obtain ⟨old, hold, haddr', hfd'', hwrdy⟩ :=
      hdrains.others ch' hch' fun heq => hnew (heq ▸ haddr)
    rw [← hfd''] at hfd' ⊢
    exact hwrdy (hready old hold (List.mem_cons_of_mem _ (haddr' ▸ haddr)) hfd')
  next hfd =>
    exact ⟨s, rfl, h, hrest, hsub, fun ch' hch' haddr =>
      hready ch' hch' (List.mem_cons_of_mem _ haddr)⟩

theorem Inv.proceed (h : Inv m) (answers : List SendResult) :
    ∃ m', proceed m answers = some m' ∧ Inv m' := by
  obtain ⟨s, phase⟩ := m
  obtain ⟨hsound, hahead⟩ := h
  match phase, hahead with
  | .delete (channel :: walk), hahead =>
    obtain ⟨s', hs', hinv⟩ := Inv.visitDelete hsound hahead
    exact ⟨_, congrArg (Option.map _) hs', hinv⟩
  | .delete [], _ => exact ⟨_, rfl, hsound, trivial⟩
  | .select, _ => exact ⟨_, rfl, hsound, trivial⟩
  | .read wrset, hsub =>
    exact ⟨_, rfl, hsound, hsound.addrs_nodup, List.Subset.refl _, fun _ _ _ hfd => hsub hfd⟩
  | .write wrset (channel :: walk), hahead =>
    obtain ⟨s', hs', hinv⟩ := Inv.visitWrite hsound hahead answers
    exact ⟨_, congrArg (Option.map _) hs', hinv⟩
  | .write _ [], _ => exact ⟨_, rfl, hsound, hsound.addrs_nodup, List.Subset.refl _⟩

theorem Inv.select (h : Inv m) (ready : Option (List Nat)) : Inv (select m ready) := by
  obtain ⟨s, phase⟩ := m
  match phase, ready with
  | .select, some ready => exact ⟨h.sound, fun _ hmem => mem_narrow hmem⟩
  | .select, none => exact ⟨h.sound, h.sound.addrs_nodup, List.Subset.refl _⟩
  | .delete _, _ => exact h
  | .read _, _ => exact h
  | .write _ _, _ => exact h

theorem Inv.next {e : Event} (h : Inv m) (hstep : next m e = some m') : Inv m' := by
  cases e with
  | perform op =>
    obtain ⟨s', hs', rfl⟩ := Option.map_eq_some_iff.mp hstep
    obtain ⟨hsound, hacts⟩ := h.sound.perform hs'
    exact ⟨hsound, h.ahead.acts hacts⟩
  | select ready =>
    cases hstep
    exact h.select ready
  | proceed answers =>
    obtain ⟨m'', hproceed, hinv⟩ := h.proceed answers
    cases hproceed.symm.trans hstep
    exact hinv

end Step

theorem run_inv {es : List Event} {m : Machine} (hrun : run next init es = some m) : Inv m :=
  run_invariant (Q := fun _ _ => True) (fun _ _ _ h _ => h.next) Inv.init
    (along_of_forall (fun _ _ => trivial) _ _) hrun

/-- In every state of every run, a descriptor is in `wrdy_fds` exactly when the FIFO of its client
is not `NULL`, and the write pass, whatever came after `select`, calls `HandleCongestionWrite` only
for a client with a FIFO. -/
theorem writable_iff_congested {es : List Event} {m : Machine} (hrun : run next init es = some m) :
    (∀ ch ∈ m.state.channelsList, ∀ client, ch.client = some client →
      (ch.fd ∈ m.state.wrdyFds ↔ client.ifb ≠ none)) ∧
    ∀ wrset channel walk, m.phase = .write wrset (channel :: walk) →
      ∃ ch, m.state.findChannel channel = some ch ∧
        (ch.fd ∈ wrset → ∃ client ifb, ch.client = some client ∧ client.ifb = some ifb) := by
  have h := run_inv hrun
  constructor
  · intro ch hch client hclient
    rw [h.sound.interest ch hch, Option.ne_none_iff_exists']
    constructor
    · rintro ⟨client', ifb, hclient', hifb⟩
      cases hclient.symm.trans hclient'
      exact ⟨ifb, hifb⟩
    · rintro ⟨ifb, hifb⟩
      exact ⟨client, ifb, hclient, hifb⟩
  · intro wrset channel walk hphase
    obtain ⟨ch, _, _, hfind, hcongested⟩ := Inv.congested h.sound (hphase ▸ h.ahead)
    exact ⟨ch, hfind, hcongested⟩

/-- A client that congests after the accept of another one is drained in the next round. -/
theorem writable_iff_congested_drain :
    ∃ m, run next init [.perform (.connect 5), .perform (.accept 6),
        .perform (.send 0 ⟨[50, 2, 10], by decide⟩ .wouldBlock), .select (some [5, 6]),
        .perform (.remove 0), .proceed [], .proceed []] = some m ∧
      m.phase = .write [5] [0] ∧
      (∃ ch, m.state.findChannel 0 = some ch ∧ (ch.fd ∈ [5] →
        ∃ client ifb, ch.client = some client ∧ client.ifb = some ifb)) ∧
      m.state.wrdyFds = [5] := by
  refine ⟨_, rfl, rfl, ?_, rfl⟩
  exact (@writable_iff_congested [.perform (.connect 5), .perform (.accept 6),
    .perform (.send 0 ⟨[50, 2, 10], by decide⟩ .wouldBlock), .select (some [5, 6]),
    .perform (.remove 0), .proceed [], .proceed []] _ rfl).2 [5] 0 [] rfl

def view (s : State) (ch : Channel) (client : Client) : Socket.Client :=
  ⟨client.ifb, decide (ch.fd ∈ s.wrdyFds), client.kernel⟩

section View

variable {s : State} {ch : Channel}

theorem findChannel_setClient (s : State) {ch : Channel} (hfind : s.findChannel ch.addr = some ch)
    (client : Client) :
    (s.setClient ch.addr client).findChannel ch.addr = some { ch with client := some client } := by
  rw [State.findChannel, State.setClient, State.modify, List.find?_map]
  have hsame : ((fun c : Channel => decide (c.addr = ch.addr)) ∘ fun c =>
      if c.addr = ch.addr then { c with client := some client } else c) =
      fun c => decide (c.addr = ch.addr) := by
    funext c
    rw [Function.comp_apply]
    split
    · rfl
    · rfl
  rw [hsame]
  rw [State.findChannel] at hfind
  rw [hfind, Option.map_some, if_pos rfl]

theorem bufferizedSocketSendRaw_view (hfind : s.findChannel ch.addr = some ch) (client : Client)
    (buffer : Str) (r : SendResult) :
    ∃ client', (bufferizedSocketSendRaw s ch client buffer r).findChannel ch.addr =
        some { ch with client := some client' } ∧
      view (bufferizedSocketSendRaw s ch client buffer r) ch client' =
        (Socket.bufferizedSocketSendRaw (view s ch client) buffer r).1 := by
  have hcongest (client : Client) (tail : Str) : ∃ client',
      (congest s ch client tail).findChannel ch.addr = some { ch with client := some client' } ∧
      view (congest s ch client tail) ch client' = Socket.congest (view s ch client) tail := by
    refine ⟨_, findChannel_setClient s hfind _, ?_⟩
    have hmem : ch.fd ∈ (congest s ch client tail).wrdyFds := mem_fdSet.mpr (.inl rfl)
    rw [view, Socket.congest, decide_eq_true hmem]
    rfl
  obtain ⟨ifb, kernel⟩ := client
  cases ifb with
  | some ifb => exact ⟨_, findChannel_setClient s hfind _, rfl⟩
  | none =>
    rw [Socket.bufferizedSocketSendRaw, Interest.bufferizedSocketSendRaw, view]
    dsimp only
    by_cases hall : r.ret buffer.length = buffer.length
    · rw [if_pos hall, if_pos hall]
      exact ⟨_, findChannel_setClient s hfind _, rfl⟩
    rw [if_neg hall, if_neg hall]
    by_cases herr : r.ret buffer.length = -1
    · rw [if_pos herr, if_pos herr]
      by_cases hblock : r = .wouldBlock
      · rw [if_pos hblock, if_pos hblock]
        exact hcongest ⟨none, _⟩ buffer
      · rw [if_neg hblock, if_neg hblock]
        exact ⟨_, findChannel_setClient s hfind _, rfl⟩
    · rw [if_neg herr, if_neg herr]
      exact hcongest ⟨none, _⟩ _

theorem handleCongestionWrite_view (hfind : s.findChannel ch.addr = some ch) {client : Client}
    (hclient : ch.client = some client) (answers : List SendResult) {s' : State}
    (hdrain : handleCongestionWrite s ch answers = some s') :
    ∃ client', s'.findChannel ch.addr = some { ch with client := some client' } ∧
      (Socket.handleCongestionWrite (view s ch client) answers).map Prod.fst =
        some (view s' ch client') := by
  obtain ⟨ifb, kernel⟩ := client
  rw [Interest.handleCongestionWrite, hclient] at hdrain
  cases ifb with
  | none => cases hdrain
  | some ifb =>
    rw [Socket.handleCongestionWrite, view]
    dsimp only at hdrain ⊢
    by_cases hret : (ivyFifoSendSocket ifb answers).ret = 0
    · rw [if_pos hret] at hdrain ⊢
      cases hdrain
      refine ⟨_, findChannel_setClient (ivyChannelClearWritableEvent s ch) hfind _, ?_⟩
      have hmem : ch.fd ∉ (ivyChannelClearWritableEvent s ch).wrdyFds :=
        fun hmem => (mem_fdClr.mp hmem).2 rfl
      exact congrArg (fun writable => some (Socket.Client.mk none writable _))
        (decide_eq_false hmem).symm
    · rw [if_neg hret] at hdrain ⊢
      cases hdrain
      exact ⟨_, findChannel_setClient s hfind _, rfl⟩

end View

end IvyBus.Interest
