import IvyBus.Lib.Run
import IvyBus.Loop

namespace IvyBus.Loop

open Lib

/-- No handler of a channel is called after its `handle_delete`. -/
def Ended (calls : List Call) : Prop :=
  calls.Pairwise fun earlier later =>
    earlier.handler = .delete → later.channel ≠ earlier.channel

def addrs (s : State) : List Nat := s.channelsList.map Channel.addr

structure Inv (dying : Option Nat) (s : State) : Prop where
  nodup : (addrs s).Nodup
  fresh : ∀ ch ∈ addrs s, ch < s.brk
  called : ∀ c ∈ s.calls, c.channel < s.brk
  ended : Ended s.calls
  linked : ∀ ch ∈ addrs s, dying ≠ some ch → ⟨.delete, ch⟩ ∉ s.calls

section Inv

variable {handlers : Handlers} {dying : Option Nat} {s s' : State} {channel : Channel}

theorem inv_ivyChannelInit : Inv none ivyChannelInit :=
  ⟨List.nodup_nil, nofun, nofun, List.Pairwise.nil, nofun⟩

theorem Inv.weaken (h : Inv none s) (dying : Option Nat) : Inv dying s :=
  { h with linked := fun ch hch _ => h.linked ch hch nofun }

theorem Inv.of_addrs_eq (h : Inv dying s) (haddrs : addrs s' = addrs s) (hbrk : s'.brk = s.brk)
    (hcalls : s'.calls = s.calls) : Inv dying s' := by
  constructor
  · rw [haddrs]
    exact h.nodup
  · rw [haddrs, hbrk]
    exact h.fresh
  · rw [hcalls, hbrk]
    exact h.called
  · rw [hcalls]
    exact h.ended
  · rw [haddrs, hcalls]
    exact h.linked

theorem Inv.ivyChannelAdd (h : Inv dying s) (fd : Nat) (handleDelete : Bool) :
    Inv dying (ivyChannelAdd s fd handleDelete) := by
  have hnew : s.brk ∉ addrs s := fun hmem => (h.fresh _ hmem).false
  refine ⟨List.nodup_cons.mpr ⟨hnew, h.nodup⟩, fun ch hch => ?_, fun c hc => ?_, h.ended,
    fun ch hch hne => ?_⟩
  · rcases List.mem_cons.mp hch with rfl | hch
    · exact Nat.lt_succ_self _
    · exact Nat.lt_succ_of_lt (h.fresh ch hch)
  · exact Nat.lt_succ_of_lt (h.called c hc)
  · rcases List.mem_cons.mp hch with rfl | hch
    · exact fun hin => (h.called _ hin).false
    · exact h.linked ch hch hne

theorem addrs_ivyChannelRemove (s : State) (channel : Channel) :
    addrs (ivyChannelRemove s channel) = addrs s := by
  rw [addrs, ivyChannelRemove, List.map_map]
  apply List.map_congr_left
  intro ch _
  rw [Function.comp_apply]
  split <;> rfl

theorem Inv.perform (h : Inv dying s) (op : Op) :
    Inv dying (perform s op) ∧ addrs s <:+ addrs (perform s op) := by
  cases op with
  | add fd handleDelete => exact ⟨h.ivyChannelAdd fd handleDelete, List.suffix_cons ..⟩
  | remove channel =>
    simp only [Loop.perform]
    cases findChannel s channel with
    | none => exact ⟨h, List.suffix_rfl⟩
    | some ch =>
      rw [Option.elim_some, addrs_ivyChannelRemove]
      exact ⟨h.of_addrs_eq (addrs_ivyChannelRemove s ch) rfl rfl, List.suffix_rfl⟩
  | addWritableEvent channel =>
    simp only [Loop.perform]
    cases findChannel s channel with
    | none => exact ⟨h, List.suffix_rfl⟩
    | some ch => exact ⟨h.of_addrs_eq rfl rfl rfl, List.suffix_rfl⟩
  | clearWritableEvent channel =>
    simp only [Loop.perform]
    cases findChannel s channel with
    | none => exact ⟨h, List.suffix_rfl⟩
    | some ch => exact ⟨h.of_addrs_eq rfl rfl rfl, List.suffix_rfl⟩

theorem Inv.performs (h : Inv dying s) (ops : List Op) :
    Inv dying (performs s ops) ∧ addrs s <:+ addrs (performs s ops) := by
  induction ops generalizing s with
  | nil => exact ⟨h, List.suffix_rfl⟩
  | cons op ops ih =>
    obtain ⟨hop, hsuffix⟩ := h.perform op
    obtain ⟨hops, hrest⟩ := ih hop
    exact ⟨hops, hsuffix.trans hrest⟩

theorem Inv.called_append (h : Inv none s) (hmem : channel.addr ∈ addrs s) (handler : Handler) :
    Inv (if handler = .delete then some channel.addr else none)
      { s with calls := s.calls ++ [⟨handler, channel.addr⟩] } := by
  refine ⟨h.nodup, h.fresh, fun c hc => ?_, ?_, fun ch hch hne hin => ?_⟩
  · rcases List.mem_append.mp hc with hc | hc
    · exact h.called c hc
    · rw [List.mem_singleton.mp hc]
      exact h.fresh _ hmem
  · refine List.pairwise_append.mpr ⟨h.ended, List.pairwise_singleton _ _, ?_⟩
    intro earlier hearlier later hlater hdelete heq
    rw [List.mem_singleton.mp hlater] at heq
    have hcall : (⟨.delete, channel.addr⟩ : Call) = earlier := Call.ext hdelete.symm heq
    exact h.linked _ hmem nofun (hcall ▸ hearlier)
  · rcases List.mem_append.mp hin with hin | hin
    · exact h.linked ch hch nofun hin
    · obtain ⟨hdelete, haddr⟩ := Call.mk.inj (List.mem_singleton.mp hin)
      rw [if_pos hdelete.symm, haddr] at hne
      exact hne rfl

variable (handlers)

theorem Inv.call (h : Inv none s) (hmem : channel.addr ∈ addrs s) (handler : Handler) :
    Inv (if handler = .delete then some channel.addr else none)
      (call handlers handler channel s) ∧ addrs s <:+ addrs (call handlers handler channel s) :=
  (h.called_append hmem handler).performs _

theorem Inv.callDelete (h : Inv none s) (hmem : channel.addr ∈ addrs s) :
    Inv (some channel.addr) (callDelete handlers channel s) ∧
      addrs s <:+ addrs (callDelete handlers channel s) := by
  rw [Loop.callDelete]
  split
  · exact h.call handlers hmem .delete
  · exact ⟨h.weaken _, List.suffix_rfl⟩

theorem Inv.ivyChannelDelete (h : Inv none s) {ps : List Nat} (hmem : channel.addr ∈ addrs s)
    (hahead : (channel.addr :: ps) <:+ addrs s) :
    Inv none (ivyChannelDelete handlers channel s) ∧
      ps <:+ addrs (ivyChannelDelete handlers channel s) := by
  obtain ⟨hinv, hsuffix⟩ := h.callDelete handlers hmem
  have hsub : (addrs (Loop.ivyChannelDelete handlers channel s)).Sublist
      (addrs (Loop.callDelete handlers channel s)) := List.eraseP_sublist.map _
  refine ⟨?_, unlink_suffix hinv.nodup (hahead.trans hsuffix)⟩
  refine ⟨hinv.nodup.sublist hsub, fun ch hch => hinv.fresh ch (hsub.subset hch), hinv.called,
    hinv.ended, fun ch hch _ => hinv.linked ch (hsub.subset hch) fun heq => ?_⟩
  rw [← Option.some.inj heq] at hch
  exact notMem_unlink hinv.nodup hch

theorem Inv.eachChannel (h : Inv none s) {body : Channel → State → State}
    (hbody : ∀ ch t ps, Inv none t → ch.addr ∈ addrs t → (ch.addr :: ps) <:+ addrs t →
      Inv none (body ch t) ∧ ps <:+ addrs (body ch t)) :
    ∃ s', eachChannel body s = some s' ∧ Inv none s' := by
  refine forEachSafe_ahead (I := fun _ => Inv none) (fun _ _ ht => ht.nodup) ?_ h
  intro ch ps t ht hmem hahead
  exact ⟨_, rfl, hbody ch t ps ht (List.mem_map_of_mem hmem) hahead⟩

theorem Inv.channelDefferedDelete (h : Inv none s) :
    ∃ s', channelDefferedDelete handlers s = some s' ∧ Inv none s' := by
  refine h.eachChannel fun ch t ps ht hmem hahead => ?_
  split
  · exact ht.ivyChannelDelete handlers hmem hahead
  · exact ⟨ht, (List.suffix_cons ..).trans hahead⟩

theorem Inv.dispatch (h : Inv none s) (current : List Nat) (handler : Handler)
    (hhandler : handler ≠ .delete) : ∃ s', Loop.eachChannel (fun channel s =>
      if channel.fd ∈ current then Loop.call handlers handler channel s else s) s = some s' ∧
        Inv none s' := by
  refine h.eachChannel fun ch t ps ht hmem hahead => ?_
  have hsuffix : ps <:+ addrs t := (List.suffix_cons ..).trans hahead
  split
  · obtain ⟨hinv, hrest⟩ := ht.call handlers hmem handler
    rw [if_neg hhandler] at hinv
    exact ⟨hinv, hsuffix.trans hrest⟩
  · exact ⟨ht, hsuffix⟩

theorem Inv.untilSelect (h : Inv none s) (round : Round) :
    ∃ s', untilSelect handlers s round = some s' ∧ Inv none s' := by
  obtain ⟨t, ht, hinv⟩ := h.channelDefferedDelete handlers
  exact ⟨_, by rw [Loop.untilSelect, ht]; rfl, (hinv.performs _).1⟩

end Inv

/-- `select` reports no exception on the descriptor of a channel that has a `handle_delete`. -/
def NoException (handlers : Handlers) (s : State) (round : Round) : Prop :=
  ∀ rdset wrset exset, round.select = .ready rdset wrset exset →
    ∀ given, untilSelect handlers s round = some given →
      ∀ ch ∈ (untilDispatch given round).channelsList, ch.handleDelete = true →
        ch.fd ∉ narrow given.openFds exset

section Rounds

variable {handlers : Handlers} {s s' : State}

theorem ivyChannelHandleExcpt_eq {current : List Nat} (h : Inv none s)
    (hquiet : ∀ ch ∈ s.channelsList, ch.handleDelete = true → ch.fd ∉ current) :
    ivyChannelHandleExcpt handlers current s = some s := by
  have hskip : ∀ ch ∈ s.channelsList,
      some (if ch.fd ∈ current then callDelete handlers ch s else s) = some s := by
    intro ch hch
    split
    · rename_i hin
      have hnone : ch.handleDelete ≠ true := fun hdelete => hquiet ch hch hdelete hin
      rw [callDelete, if_neg hnone]
    · rfl
  have hwalk := @eachSafe_skip State Channel Nat _ Channel.addr State.channelsList
    (fun ch t => some (if ch.fd ∈ current then callDelete handlers ch t else t))
    s [] s.channelsList [] (List.append_nil _).symm h.nodup hskip 1
  rw [List.append_nil, Nat.add_comm] at hwalk
  exact hwalk

theorem Inv.ivyMainLoop (h : Inv none s) {round : Round} (hquiet : NoException handlers s round) :
    ∃ s', ivyMainLoop handlers s round = some s' ∧ Inv none s' := by
  obtain ⟨given, hgiven, hinv⟩ := h.untilSelect handlers round
  have hdispatch : Inv none (untilDispatch given round) := ((hinv.performs _).1.performs _).1
  rw [Loop.ivyMainLoop, hgiven, Option.bind_some]
  split
  · exact ⟨_, rfl, (hinv.performs _).1⟩
  · exact ⟨_, rfl, hdispatch⟩
  · rename_i rdset wrset exset hready
    rw [ivyChannelHandleExcpt_eq hdispatch (hquiet rdset wrset exset hready given hgiven),
      Option.bind_some]
    obtain ⟨t, ht, hread⟩ := hdispatch.dispatch handlers (narrow given.openFds rdset)
      .read nofun
    obtain ⟨s', hs', hwrite⟩ := hread.dispatch handlers (narrow given.wrdyFds wrset)
      .write nofun
    exact ⟨s', by rw [ivyChannelHandleRead, ht, Option.bind_some]; exact hs', hwrite⟩

/-- In every run of the loop without exceptions `handle_delete` is the last handler called for a
channel, and is called once. -/
theorem calls_ended (handlers : Handlers) (rounds : List Round)
    (hquiet : Along (ivyMainLoop handlers) (NoException handlers) ivyChannelInit rounds) :
    ∃ s, run (ivyMainLoop handlers) ivyChannelInit rounds = some s ∧ Ended s.calls := by
  obtain ⟨s, hrun, hinv⟩ := run_defined (fun _ _ hs hround => hs.ivyMainLoop hround)
    inv_ivyChannelInit hquiet
  exact ⟨s, hrun, hinv.ended⟩

end Rounds

def closing : Handlers
  | [⟨.read, channel⟩] => [.remove channel]
  | _ => []

/-- A channel is added before `select`, is closed when it is read, and then deleted. -/
theorem calls_ended_closing : ∃ s,
    run (ivyMainLoop closing) ivyChannelInit
      [⟨[.add 5 true], [], [], .ready [5] [] []⟩, ⟨[], [], [], .interrupted⟩] = some s ∧
        Ended s.calls := by
  refine calls_ended closing _ ⟨?_, fun s _ => ⟨nofun, fun _ _ => trivial⟩⟩
  intro rdset wrset exset hready given _ ch _ _
  cases hready
  simp [narrow]

/-- The descriptor of a channel is reported in the set of exceptions and in the set of reads. -/
theorem excpt_then_read : ∃ s,
    run (ivyMainLoop fun _ => []) ivyChannelInit [⟨[.add 5 true], [], [], .ready [5] [] [5]⟩] =
      some s ∧ ¬ Ended s.calls := by
  refine ⟨_, rfl, ?_⟩
  unfold Ended
  decide

end IvyBus.Loop
