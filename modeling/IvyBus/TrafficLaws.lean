import IvyBus.ArgvLaws
import IvyBus.Moves
import IvyBus.Traffic

namespace IvyBus.Network

open Lib Ivy

variable {Agent Code : Type} {engine : Engine Code}

section Send

variable {s : Ivy Code} {message : Str}

theorem AgentOk.sends_message (h : AgentOk engine s) (hplain : lf ∉ message ∧ 0 ∉ message) :
    Local engine s (ivySendMsg engine s message).1 := by
  cases hmode : s.debugBinaryMsg && ivyCheckBuffer message with
  | true =>
    rw [ivySendMsg, hmode, if_pos rfl]
    exact ⟨h, fun c => ⟨[], sends_kept (Steady.refl s) (Kept.refl s) c⟩, fun _ => id, rfl,
      fun _ => rfl⟩
  | false =>
    rw [ivySendMsg_eq engine hmode]
    refine ⟨h.of_frame rfl le_rfl h.bound ⟨h.wf.dict, h.wf.clients⟩ h.agree, fun c => ?_,
      fun _ => id, rfl, fun _ => rfl⟩
    obtain ⟨ms, hbytes, hms⟩ := h.exists_matches hplain (List.mem_singleton_self message) c
    have hframe : (s.extend (sendLines engine s message)).frame = s.frame := rfl
    refine ⟨ms, sends_skips hframe id rfl ((bytesTo_sendLines ..).trans hbytes) (fun m hm => ?_)
      (fun m hm => ?_) fun hnone => ?_⟩
    · refine ⟨by simp [(hms m hm).1], fun hadd => ?_⟩
      rw [(hms m hm).1] at hadd
      cases hadd
    · rw [note, (hms m hm).1]
    · refine List.eq_nil_iff_forall_not_mem.mpr fun m hm => ?_
      obtain ⟨-, r, hr, -⟩ := hms m hm
      rw [registered_eq_nil hnone] at hr
      cases hr

end Send

theorem message_of_line {m m' : Message} (h : m.line = m'.line) : m = m' := by
  have hparsed : m.parsed = m'.parsed :=
    Option.some.inj (by rw [← m.parseHeader_line, h, m'.parseHeader_line])
  obtain ⟨kind, id, text⟩ := m
  obtain ⟨kind', id', text'⟩ := m'
  obtain ⟨hkind, rfl, htext⟩ := Header.mk.inj hparsed
  have hofInt := congrArg MsgType.ofInt32 hkind
  rw [MsgType.ofInt32_toInt32, MsgType.ofInt32_toInt32] at hofInt
  obtain rfl := Option.some.inj hofInt
  obtain rfl : text = text' := Subtype.ext htext
  rfl

section Args

theorem argv_captures {message : Str} (hmessage : argEnd ∉ message) (groups : List (Nat × Nat)) :
    argv (captures message groups) = if groups.length ≤ maxMatchingArgs then
      some (groups.map (ivyBindingMatch message)) else none := by
  have hnone : ∀ arg ∈ groups.map (ivyBindingMatch message), argEnd ∉ arg := by
    intro arg harg hin
    obtain ⟨group, -, rfl⟩ := List.mem_map.mp harg
    exact hmessage (List.mem_of_mem_drop (List.mem_of_mem_take hin))
  have hsplits : Argv.Splits (captures message groups)
      (groups.map (ivyBindingMatch message)) := by
    have hflat := Argv.splits_flatMap _ hnone
    rwa [List.flatMap_map] at hflat
  rw [argv, Argv.nextArgs_of_splits hsplits (Nat.lt_succ_self _), List.length_map]

end Args

def Grounded (engine : Engine Code) (t : Traffic Agent Code) (x : Agent) (c : Handle)
    (call : Call) : Prop :=
  ∃ y, Joins t.net c y x ∧ (call.rcv.id, call.rcv.regexp) ∈ t.bound x ∧
    ∃ message ∈ t.said y, ∃ groups,
      ivyBindingExec engine (engine.compile call.rcv.regexp).toOption message = some groups ∧
        call.argv = groups.map (ivyBindingMatch message)

/-- The lines on their way and the subscriptions say what their senders have done. -/
structure Honest (engine : Engine Code) (t : Traffic Agent Code) : Prop where
  inv : Inv engine t.net
  bound : ∀ x, ∀ p ∈ bindings (t.net.state x), p ∈ t.bound x
  below : ∀ x, ∀ p ∈ t.bound x, p.1.toInt < (t.net.state x).recvId.toInt
  unique : ∀ x, ∀ p ∈ t.bound x, ∀ q ∈ t.bound x, p.1 = q.1 → p = q
  ready : ∀ x message, (t.net.state x).readyMessage = some message → message ∈ t.said x
  plain : ∀ x, ∀ message ∈ t.said x, argEnd ∉ message
  known : ∀ c x, ∀ p ∈ (t.net.state x).registered c, ∃ y, Joins t.net c y x ∧ p ∈ t.bound y
  lines : ∀ c x, ∀ line ∈ t.net.flight c x, ∃ y m, Joins t.net c y x ∧ line = Message.line m ∧
    Says engine (t.bound y) (t.bound x) (t.said y) m

def Up (net : Net Agent Code) (c : Handle) (y x : Agent) : Prop :=
  Joins net c y x ∧ ¬ Waits net c y x

/-- The agent `x` moves, and nothing else changes: it takes at most one line of each connection,
and the other ends get what it writes. -/
structure Steps (engine : Engine Code) (t t' : Traffic Agent Code) (x : Agent)
    (kinds : List MsgType) : Prop where
  joins : ∀ c y z, Joins t.net c y z → Joins t'.net c y z
  ups : ∀ c y z, Up t.net c y z → Up t'.net c y z
  opens : ∀ c y, Up t.net c y x → Open (t'.net.state x) c → Open (t.net.state x) c
  others : ∀ y, y ≠ x → t'.net.state y = t.net.state y ∧ t'.calls y = t.calls y
  bound : ∀ y, t'.bound y = t.bound y ++ bindings (t'.net.state y)
  said : ∀ y, ∀ message ∈ t.said y, message ∈ t'.said y
  plain : ∀ y, ∀ message ∈ t'.said y, message ∈ t.said y ∨ argEnd ∉ message
  written : ∀ y c, t'.written y c = t.written y c ++
    linesTo c ((t'.net.state y).outputs.drop (t.net.state y).outputs.length)
  moves : Moves engine (t'.said x) kinds (t.net.state x) (t'.net.state x)
  known : ∀ c, ∀ p ∈ (t'.net.state x).registered c,
    p ∈ (t.net.state x).registered c ∨ ∃ y, Joins t.net c y x ∧ p ∈ t.bound y
  own : ∀ c, t'.net.flight c x = t.net.flight c x ∧ t'.calls x c = t.calls x c ∨
    ∃ line made, t.net.flight c x = line :: t'.net.flight c x ∧
      receiveMsg (t.net.state x) c line = some made ∧ t'.calls x c = t.calls x c ++ made
  sent : ∀ c y, y ≠ x → Joins t'.net c x y → t'.net.flight c y = t.net.flight c y ++
    linesTo c ((t'.net.state x).outputs.drop (t.net.state x).outputs.length)
  kept : ∀ c y, y ≠ x → ¬ Joins t'.net c x y → t'.net.flight c y = t.net.flight c y

section Steps

variable {t t' : Traffic Agent Code} {x : Agent} {kinds : List MsgType}

theorem Steps.bound_le (h : Steps engine t t' x kinds) (y : Agent) :
    ∀ p ∈ t.bound y, p ∈ t'.bound y :=
  fun _ hp => h.bound y ▸ List.mem_append_left _ hp

theorem Steps.mem_bound (ht : Honest engine t) (h : Steps engine t t' x kinds) {y : Agent}
    {p : Int32 × Str} (hp : p ∈ t'.bound y) : p ∈ t.bound y ∨
      y = x ∧ p ∈ bindings (t'.net.state x) ∧ p.1 = (t.net.state x).recvId ∧
        (t.net.state x).recvId.toInt < (t'.net.state x).recvId.toInt := by
  rw [h.bound, List.mem_append] at hp
  rcases hp with hp | hp
  · exact Or.inl hp
  · by_cases hy : y = x
    · rw [hy] at hp ⊢
      rcases h.moves.bindings p hp with hold | hnew
      · exact Or.inl (ht.bound x p hold)
      · exact Or.inr ⟨rfl, hp, hnew⟩
    · rw [(h.others y hy).1] at hp
      exact Or.inl (ht.bound y p hp)

theorem Steps.recvId_le (h : Steps engine t t' x kinds) (y : Agent) :
    (t.net.state y).recvId.toInt ≤ (t'.net.state y).recvId.toInt := by
  by_cases hy : y = x
  · exact hy ▸ h.moves.recvId_le
  · exact Int.le_of_eq (by rw [(h.others y hy).1])

theorem Steps.mem_flight (h : Steps engine t t' x kinds) {c : Handle} {y : Agent} {line : Str}
    (hline : line ∈ t'.net.flight c y) : line ∈ t.net.flight c y ∨ Joins t'.net c x y ∧
      line ∈ linesTo c ((t'.net.state x).outputs.drop (t.net.state x).outputs.length) := by
  by_cases hy : y = x
  · rw [hy] at hline ⊢
    rcases h.own c with ⟨hsame, -⟩ | ⟨first, made, hfirst, -, -⟩
    · exact Or.inl (hsame ▸ hline)
    · exact Or.inl (hfirst ▸ List.mem_cons_of_mem _ hline)
  · by_cases hj : Joins t'.net c x y
    · rw [h.sent c y hy hj, List.mem_append] at hline
      exact hline.imp_right fun hnew => ⟨hj, hnew⟩
    · exact Or.inl (h.kept c y hy hj ▸ hline)

/-- A new binding has an id that no binding has had. -/
theorem Honest.unique_step (ht : Honest engine t) (hinv : Inv engine t'.net)
    (h : Steps engine t t' x kinds) (y : Agent) :
    ∀ p ∈ t'.bound y, ∀ q ∈ t'.bound y, p.1 = q.1 → p = q := by
  intro p hp q hq heq
  rcases h.mem_bound ht hp with hp | ⟨rfl, hp, hpid, -⟩
  · rcases h.mem_bound ht hq with hq | ⟨rfl, -, hqid, -⟩
    · exact ht.unique y p hp q hq heq
    · have hlt := ht.below y p hp
      rw [heq, hqid] at hlt
      exact absurd hlt (Int.lt_irrefl _)
  · rcases h.mem_bound ht hq with hq | ⟨-, hq, -, -⟩
    · have hlt := ht.below y q hq
      rw [← heq, hpid] at hlt
      exact absurd hlt (Int.lt_irrefl _)
    · exact List.inj_on_of_nodup_map (hinv.agents y).ids hp hq heq

theorem Honest.tells_step (ht : Honest engine t) (hinv : Inv engine t'.net)
    (h : Steps engine t t' x kinds) {c : Handle} {y : Agent} (hj : Joins t'.net c x y)
    {line : Str} (hline : line ∈
      linesTo c ((t'.net.state x).outputs.drop (t.net.state x).outputs.length)) :
    ∃ m, line = Message.line m ∧ Says engine (t'.bound x) (t.bound y) (t'.said x) m := by
  obtain ⟨ms, hms, htells⟩ := h.moves.writes c
  rw [hms] at hline
  obtain ⟨m, hm, rfl⟩ := List.mem_map.mp hline
  refine ⟨m, rfl, (htells m hm).2.mono (fun p hp => ?_) (fun p hp => ?_) fun _ => id⟩
  · exact h.bound x ▸ List.mem_append_right _ hp
  · obtain ⟨z, hz, hbound⟩ := ht.known c x p hp
    rwa [hinv.joins_unique hj.symm (h.joins c z x hz)]

theorem Honest.lines_step (ht : Honest engine t) (hinv : Inv engine t'.net)
    (h : Steps engine t t' x kinds) (c : Handle) (y : Agent) :
    ∀ line ∈ t'.net.flight c y, ∃ z m, Joins t'.net c z y ∧ line = Message.line m ∧
      Says engine (t'.bound z) (t'.bound y) (t'.said z) m := by
  intro line hline
  rcases h.mem_flight hline with hold | ⟨hj, hnew⟩
  · obtain ⟨z, m, hj, rfl, htells⟩ := ht.lines c y line hold
    exact ⟨z, m, h.joins c z y hj, rfl, htells.mono (h.bound_le z) (h.bound_le y) (h.said z)⟩
  · obtain ⟨m, rfl, htells⟩ := ht.tells_step hinv h hj hnew
    exact ⟨x, m, hj, rfl, htells.mono (fun _ => id) (h.bound_le y) fun _ => id⟩

theorem Honest.step (ht : Honest engine t) (hinv : Inv engine t'.net)
    (h : Steps engine t t' x kinds) : Honest engine t' := by
  refine ⟨hinv, fun y p hp => h.bound y ▸ List.mem_append_right _ hp, fun y p hp => ?_,
    ht.unique_step hinv h, fun y message hmessage => ?_, fun y message hmessage => ?_,
    fun c y p hp => ?_, ht.lines_step hinv h⟩
  · rcases h.mem_bound ht hp with hp | ⟨rfl, -, hid, hlt⟩
    · exact Int.lt_of_lt_of_le (ht.below y p hp) (h.recvId_le y)
    · exact hid ▸ hlt
  · by_cases hy : y = x
    · rw [hy, h.moves.ready_eq] at hmessage
      exact h.said y message (ht.ready y message (hy ▸ hmessage))
    · rw [(h.others y hy).1] at hmessage
      exact h.said y message (ht.ready y message hmessage)
  · rcases h.plain y message hmessage with hmessage | hplain
    · exact ht.plain y message hmessage
    · exact hplain
  · have hold : p ∈ (t.net.state y).registered c ∨ ∃ z, Joins t.net c z y ∧ p ∈ t.bound z := by
      by_cases hy : y = x
      · rw [hy] at hp ⊢
        exact h.known c p hp
      · exact Or.inl ((h.others y hy).1 ▸ hp)
    obtain ⟨z, hz, hbound⟩ := hold.elim (ht.known c y p) id
    exact ⟨z, h.joins c z y hz, h.bound_le z p hbound⟩

theorem Grounded.step (h : Steps engine t t' x kinds) {y : Agent} {c : Handle} {call : Call}
    (hcall : Grounded engine t y c call) : Grounded engine t' y c call := by
  obtain ⟨z, hj, hbound, message, hmessage, hgroups⟩ := hcall
  exact ⟨z, h.joins c z y hj, h.bound_le y _ hbound, message, h.said z message hmessage, hgroups⟩

theorem Honest.grounded (ht : Honest engine t) {c : Handle} {line : Str}
    (hline : line ∈ t.net.flight c x) {made : List Call}
    (hmade : receiveMsg (t.net.state x) c line = some made) {call : Call} (hcall : call ∈ made) :
    Grounded engine t x c call := by
  obtain ⟨y, m, hj, rfl, htells⟩ := ht.lines c x line hline
  rw [receiveMsg, m.parseHeader_line] at hmade
  split at hmade
  · rename_i clnt h _ hh
    obtain rfl := Option.some.inj hh
    split at hmade
    · obtain rfl := Option.some.inj hmade
      cases hcall
    · rename_i hopen
      rw [not_or, not_not] at hopen
      have hkind : MsgType.ofInt32 m.kind.toInt32 = some .msg := hopen.2
      rw [MsgType.ofInt32_toInt32] at hkind
      unfold Says at htells
      rw [Option.some.inj hkind] at htells
      obtain ⟨r, hr, message, hmessage, groups, hgroups, htext⟩ := htells
      split at hmade
      · obtain rfl := Option.some.inj hmade
        cases hcall
      · rename_i rcv hrcv
        obtain ⟨args, hargs, rfl⟩ := Option.map_eq_some_iff.mp hmade
        obtain rfl := List.mem_singleton.mp hcall
        have hid : rcv.id = m.parsed.id := by simpa using List.find?_some hrcv
        have hbinding : (rcv.id, rcv.regexp) ∈ t.bound x :=
          ht.bound x _ (List.mem_map_of_mem (List.mem_of_find?_eq_some hrcv))
        have hregexp : rcv.regexp = r := congrArg Prod.snd (ht.unique x _ hbinding _ hr hid)
        have htext' : argv (captures message groups) = some args := htext ▸ hargs
        rw [argv_captures (ht.plain y message hmessage)] at htext'
        rw [← hregexp] at hgroups
        refine ⟨y, hj, hbinding, message, hmessage, groups, hgroups, ?_⟩
        split at htext'
        · exact (Option.some.inj htext').symm
        · cases htext'
  · obtain rfl := Option.some.inj hmade
    cases hcall

theorem known_receive {c : Handle} {s' : Ivy Code} {y : Agent} (hj : Joins t.net c y x)
    {m : Message} (htells : Says engine (t.bound y) (t.bound x) (t.said y) m)
    (hheard : Heard engine (t.net.state x) s' c m) (c' : Handle) :
    ∀ p ∈ s'.registered c',
      p ∈ (t.net.state x).registered c' ∨ ∃ z, Joins t.net c' z x ∧ p ∈ t.bound z := by
  intro p hp
  by_cases hc : c' = c
  · rw [hc] at hp ⊢
    rcases hheard.reads.registered_eq with heq | heq
    · rw [heq] at hp
      unfold note at hp
      split at hp
      · rename_i hkind
        unfold Says at htells
        rw [hkind] at htells
        rcases List.mem_cons.mp hp with rfl | hp
        · exact Or.inr ⟨y, hj, htells⟩
        · exact Or.inl hp
      · exact Or.inl (List.mem_filter.mp hp).1
      · exact Or.inl hp
    · exact Or.inl (heq ▸ hp)
  · exact Or.inl (hheard.others c' hc ▸ hp)

theorem steps_same (t : Traffic Agent Code) (x : Agent) :
    Steps engine t (t.move t.net) x [] := by
  refine ⟨fun _ _ _ => id, fun _ _ _ => id, fun _ _ _ => id, fun _ _ => ⟨rfl, rfl⟩,
    fun _ => rfl, fun _ _ => id, fun _ _ => Or.inl, fun _ _ => rfl, moves_kept rfl (Kept.refl _),
    fun _ _ => Or.inl, fun _ => Or.inl ⟨rfl, rfl⟩, fun c y _ _ => ?_, fun _ _ _ _ => rfl⟩
  change _ = _ ++ linesTo c ((t.net.state x).outputs.drop (t.net.state x).outputs.length)
  rw [List.drop_length]
  exact (List.append_nil _).symm

theorem Inv.ids_nodup {net : Net Agent Code} (h : Inv engine net) (c : Handle) (x : Agent) :
    (((net.state x).registered c).map Prod.fst).Nodup := by
  cases hfind : (net.state x).findClient c with
  | none =>
    rw [registered_eq_nil hfind]
    exact List.nodup_nil
  | some clnt =>
    obtain ⟨y, hj⟩ := h.nodes c x (Option.isSome_of_eq_some hfind)
    obtain ⟨ms, -, hflow, -⟩ := h.channels c y x hj
    exact hflow.nodup.sublist (List.sublist_append_left ..)

end Steps

theorem honest_init {start : Agent → Ivy Code} (hstart : ∀ x, Start (start x))
    (hready : ∀ x message, (start x).readyMessage = some message → argEnd ∉ message) :
    Honest engine (Traffic.init start) := by
  have hinv : Inv engine (Net.init start) := inv_init hstart
  have hnone : ∀ x, bindings (start x) = [] := fun x => by
    rw [bindings, (hstart x).bindings]
    rfl
  have hbound : ∀ x, (Traffic.init start).bound x = [] := hnone
  refine ⟨hinv, fun _ _ => id, fun x p hp => ?_, fun x p hp => ?_, fun x message hmessage => ?_,
    fun x message hmessage => ?_, fun c x p hp => ?_,
    fun _ _ _ hline => absurd hline List.not_mem_nil⟩
  · rw [hbound] at hp
    cases hp
  · rw [hbound] at hp
    cases hp
  · exact Option.mem_toList.mpr hmessage
  · exact hready x message (Option.mem_toList.mp hmessage)
  · change p ∈ (start x).registered c at hp
    rw [registered_eq_nil] at hp
    · cases hp
    · rw [findClient, (hstart x).clients]
      rfl

variable [DecidableEq Agent]

section Act

variable {t t' : Traffic Agent Code} {x : Agent} {s' : Ivy Code} {kinds : List MsgType}
  {c : Handle}

theorem steps_put (net : Net Agent Code) {rest : Handle → List Str}
    {calls : Agent → Handle → List Call} {said : Agent → List Str}
    (hstate : net.state = t.net.state) (hflight : net.flight = t.net.flight)
    (hjoins : ∀ c y z, Joins t.net c y z → Joins net c y z)
    (hups : ∀ c y z, Up t.net c y z → Up net c y z)
    (hopens : ∀ c y, Up t.net c y x → Open s' c → Open (t.net.state x) c)
    (hcalls : ∀ y, y ≠ x → calls y = t.calls y)
    (hsaid : ∀ y, ∀ message ∈ t.said y, message ∈ said y)
    (hplain : ∀ y, ∀ message ∈ said y, message ∈ t.said y ∨ argEnd ∉ message)
    (hmoves : Moves engine (said x) kinds (t.net.state x) s')
    (hknown : ∀ c, ∀ p ∈ s'.registered c,
      p ∈ (t.net.state x).registered c ∨ ∃ y, Joins t.net c y x ∧ p ∈ t.bound y)
    (hown : ∀ c, rest c = t.net.flight c x ∧ calls x c = t.calls x c ∨
      ∃ line made, t.net.flight c x = line :: rest c ∧
        receiveMsg (t.net.state x) c line = some made ∧ calls x c = t.calls x c ++ made) :
    Steps engine t { t.move (net.put x s' rest) with calls := calls, said := said } x kinds := by
  have hself : (net.put x s' rest).state x = s' := Function.update_self ..
  have hrest : ∀ c, (net.put x s' rest).flight c x = rest c := fun c => if_pos rfl
  have hother : ∀ y, y ≠ x → (net.put x s' rest).state y = t.net.state y := fun y hy =>
    hstate ▸ Function.update_of_ne hy ..
  refine ⟨hjoins, hups, fun c y hup hopen => hopens c y hup (hself ▸ hopen),
    fun y hy => ⟨hother y hy, hcalls y hy⟩, fun _ => rfl, hsaid, hplain, fun _ _ => rfl, ?_, ?_, ?_,
    fun c y hy (hj : Joins net c x y) => ?_,
    fun c y hy (hj : ¬ Joins net c x y) => ?_⟩
  · change Moves engine (said x) kinds (t.net.state x) ((net.put x s' rest).state x)
    rwa [hself]
  · change ∀ c, ∀ p ∈ ((net.put x s' rest).state x).registered c, _
    rwa [hself]
  · intro c
    change (net.put x s' rest).flight c x = _ ∧ calls x c = _ ∨
      ∃ line made, _ = line :: (net.put x s' rest).flight c x ∧ _ ∧ calls x c = _
    rw [hrest]
    exact hown c
  · change (if y = x then _ else if Joins net c x y then _ else _) =
      _ ++ linesTo c (((net.put x s' rest).state x).outputs.drop _)
    rw [if_neg hy, if_pos hj, hself, hstate, hflight]
  · change (if y = x then _ else if Joins net c x y then _ else _) = _
    rw [if_neg hy, if_neg hj, hflight]

theorem steps_call (net : Net Agent Code) (hstate : net.state = t.net.state)
    (hflight : net.flight = t.net.flight)
    (hjoins : ∀ c y z, Joins t.net c y z → Joins net c y z)
    (hups : ∀ c y z, Up t.net c y z → Up net c y z)
    (hopens : ∀ c y, Up t.net c y x → Open s' c → Open (t.net.state x) c)
    (hmoves : Moves engine (t.said x) kinds (t.net.state x) s')
    (hknown : ∀ c, ∀ p ∈ s'.registered c, p ∈ (t.net.state x).registered c) :
    Steps engine t (t.move (net.call x s')) x kinds :=
  steps_put net hstate hflight hjoins hups hopens (fun _ _ => rfl) (fun _ _ => id)
    (fun _ _ => Or.inl) hmoves (fun c p hp => Or.inl (hknown c p hp))
    fun c => Or.inl ⟨congrFun (congrFun hflight c) x, rfl⟩

def Goes (engine : Engine Code) (t t' : Traffic Agent Code) (a : Act Agent) : Prop :=
  Inv engine t'.net ∧ ∃ x kinds, Steps engine t t' x kinds ∧
    (.delRegexp ∈ kinds → ∃ addr, a = .event (.unbind x addr))

theorem Honest.goes_connect (ht : Honest engine t) {x y : Agent} {c : Handle} {appname : Str}
    {callbacks : List Greeting.Event} (hquiet : Greeting.Quiet callbacks) {net : Net Agent Code}
    (hnet : connect engine t.net x y c appname callbacks = some net) (a : Act Agent) :
    Goes engine t (t.move net) a := by
  obtain ⟨net', hnet', hinv⟩ := ht.inv.connect x y c appname hquiet
  obtain rfl := Option.some.inj (hnet'.symm.trans hnet)
  rw [connect] at hnet
  split at hnet
  · rw [← Option.some.inj hnet]
    exact ⟨ht.inv, x, [], steps_same t x, fun hin => absurd hin List.not_mem_nil⟩
  · rename_i hguard
    rw [not_or, not_not] at hguard
    have hnode := ht.inv.no_node hguard.2 x
    have hok := ht.inv.agents x
    have hservice := Greeting.sendService_quiet engine (Greeting.wellBound_of_agentOk hok) c appname
      hquiet
    dsimp only at hnet
    rw [hservice] at hnet
    obtain rfl := Option.some.inj hnet
    let opened : Net Agent Code := { t.net with
      ends := Function.update t.net.ends c (some (x, y))
      waiting := Function.update t.net.waiting c true }
    have hne : ∀ c' a b, Joins t.net c' a b → c' ≠ c := by
      rintro c' a b hj rfl
      rcases hj with hj | hj
      · exact Option.some_ne_none _ (hj.symm.trans hguard.2)
      · exact Option.some_ne_none _ (hj.symm.trans hguard.2)
    have hends : ∀ c', c' ≠ c → opened.ends c' = t.net.ends c' := fun c' hc =>
      Function.update_of_ne hc ..
    have hwaiting : ∀ c', c' ≠ c → opened.waiting c' = t.net.waiting c' := fun c' hc =>
      Function.update_of_ne hc ..
    have hjoins : ∀ c' a b, Joins t.net c' a b → Joins opened c' a b := by
      intro c' a b hj
      rw [Joins, hends c' (hne c' a b hj)]
      exact hj
    refine ⟨hinv, x, _, steps_call opened rfl rfl hjoins (fun c' a b hup => ?_)
      (fun c' a hup => ?_) (hok.moves_connect hnode appname) fun c' p hp => ?_, by simp⟩
    · have hc := hne c' a b hup.1
      refine ⟨hjoins c' a b hup.1, ?_⟩
      rw [Waits, hends c' hc, hwaiting c' hc]
      exact hup.2
    · exact (hok.greets hnode appname).opens c' (hne c' a x hup.1)
    · rwa [(hok.greets hnode appname).registered_eq] at hp

theorem open_clientCreate {s : Ivy Code} (hok : AgentOk engine s)
    (hnew : s.findClient c = none) (appname : Str) {c' : Handle} (hne : c' ≠ c)
    (hopen : Open (clientCreate engine s c appname) c') : Open s c' := by
  rw [clientCreate] at hopen
  split at hopen
  · exact hopen
  · exact (hok.greets hnew appname).opens c' hne hopen

theorem registered_clientCreate {s : Ivy Code} (hok : AgentOk engine s)
    (hnew : s.findClient c = none) (appname : Str) (c' : Handle) :
    (clientCreate engine s c appname).registered c' = s.registered c' := by
  rw [clientCreate]
  split
  · rfl
  · exact (hok.greets hnew appname).registered_eq c'

theorem Honest.goes_accept [Nonempty Agent] (ht : Honest engine t) {c : Handle} {appname : Str}
    {callbacks : List Greeting.Event} (hquiet : Greeting.Quiet callbacks) {net : Net Agent Code}
    (hnet : accept engine t.net c appname callbacks = some net) (a : Act Agent) :
    Goes engine t (t.move net) a := by
  obtain ⟨net', hnet', hinv⟩ := ht.inv.accept c appname hquiet
  obtain rfl := Option.some.inj (hnet'.symm.trans hnet)
  rw [accept] at hnet
  split at hnet
  · rename_i x y hends hwaiting
    have hnode := (ht.inv.waiting c x y ⟨hwaiting, hends⟩).1
    have hok := ht.inv.agents y
    have hcreate := Greeting.clientCreate_quiet engine (Greeting.wellBound_of_agentOk hok) c appname
      hquiet
    dsimp only at hnet
    rw [hcreate] at hnet
    obtain rfl := Option.some.inj hnet
    let taken : Net Agent Code :=
      { t.net with waiting := Function.update t.net.waiting c false }
    have hwaits : ∀ c' a b, Waits taken c' a b → Waits t.net c' a b := by
      rintro c' a b ⟨hw, hab⟩
      refine ⟨?_, hab⟩
      by_cases hc : c' = c
      · exact hc ▸ hwaiting
      · exact (Function.update_of_ne hc _ _).symm.trans hw
    refine ⟨hinv, y, _, steps_call taken rfl rfl (fun _ _ _ => id)
      (fun c' a b hup => ⟨hup.1, fun hw => hup.2 (hwaits c' a b hw)⟩) (fun c' a hup => ?_)
      (hok.moves_accept hnode appname)
      fun c' p hp => registered_clientCreate hok hnode appname c' ▸ hp, by simp⟩
    have hne : c' ≠ c := by
      rintro rfl
      rw [ht.inv.joins_unique hup.1 (Or.inl hends)] at hup
      exact hup.2 ⟨hwaiting, hends⟩
    exact open_clientCreate hok hnode appname hne
  · rw [← Option.some.inj hnet]
    exact ⟨ht.inv, Classical.ofNonempty, [], steps_same t _, fun hin =>
      absurd hin List.not_mem_nil⟩

theorem Honest.goes_drop (ht : Honest engine t) {net : Net Agent Code}
    (hnet : drop t.net c x = some net) (a : Act Agent) : Goes engine t (t.move net) a := by
  obtain ⟨net', hnet', hinv⟩ := ht.inv.drop c x
  obtain rfl := Option.some.inj (hnet'.symm.trans hnet)
  obtain ⟨s', hs', rfl⟩ := Option.map_eq_some_iff.mp hnet
  have hok := ht.inv.agents x
  obtain ⟨u, hu, hdropped⟩ := hok.drops (ht.inv.ids_nodup c x)
  obtain rfl := Option.some.inj (hu.symm.trans hs')
  refine ⟨hinv, x, _, steps_call t.net rfl rfl (fun _ _ _ => id) (fun _ _ _ => id)
    (fun c' _ _ => hdropped.opens c') (moves_drop hok.wf hs') fun c' p hp => ?_,
    fun hin => absurd hin List.not_mem_nil⟩
  by_cases hc : c' = c
  · rw [hc, hdropped.registered_nil] at hp
    cases hp
  · rwa [hdropped.others c' hc] at hp

theorem deliverCalls_cases {e : Event Agent} {made : Agent → Handle → List Call}
    (h : deliverCalls t e = some made) : made = t.calls ∨
      ∃ c x line rest new, e = .deliver c x ∧ t.net.flight c x = line :: rest ∧
        receiveMsg (t.net.state x) c line = some new ∧
          made = fun y d => if y = x ∧ d = c then t.calls y d ++ new else t.calls y d := by
  unfold deliverCalls at h
  split at h
  · rename_i c x
    split at h
    · exact Or.inl (Option.some.inj h).symm
    · rename_i line rest hlines
      obtain ⟨new, hnew, rfl⟩ := Option.map_eq_some_iff.mp h
      exact Or.inr ⟨c, x, line, rest, new, rfl, hlines, hnew, rfl⟩
  · exact Or.inl (Option.some.inj h).symm

theorem Honest.goes_taken (ht : Honest engine t) {line : Str} {rest : List Str}
    (hlines : t.net.flight c x = line :: rest) (hnode : ((t.net.state x).findClient c).isSome)
    (hs' : receive engine (t.net.state x) c line = some s')
    (hinv : Inv engine (t.net.put x s' (Function.update (fun c => t.net.flight c x) c rest)))
    {new : List Call} (hnew : receiveMsg (t.net.state x) c line = some new) (a : Act Agent) :
    Goes engine t { t.move
        (t.net.put x s' (Function.update (fun c => t.net.flight c x) c rest)) with
      calls := fun y d => if y = x ∧ d = c then t.calls y d ++ new else t.calls y d } a := by
  obtain ⟨y, m, hj, rfl, htells⟩ := ht.lines c x line (hlines ▸ List.mem_cons_self)
  have hchannel := ht.inv.channels c y x hj
  rw [hlines] at hchannel
  obtain ⟨m', hline, hsent, hfresh, -⟩ := hchannel.next
  obtain rfl := message_of_line hline
  obtain ⟨u, hu, hheard⟩ := (ht.inv.agents x).hears hnode hsent hfresh
  obtain rfl := Option.some.inj (hu.symm.trans hs')
  refine ⟨hinv, x, answers m.kind, steps_put t.net rfl rfl (fun _ _ _ => id) (fun _ _ _ => id)
    (fun d _ _ => hheard.opens d) (fun z hz => funext fun d => if_neg fun h => hz h.1)
    (fun _ _ => id) (fun _ _ => Or.inl)
    ((ht.inv.agents x).moves_receive hsent (ht.ready x) hs') (known_receive hj htells hheard)
    fun d => ?_, fun hdel => ?_⟩
  · by_cases hd : d = c
    · refine Or.inr ⟨m.line, new, ?_, hd ▸ hnew, if_pos ⟨rfl, hd⟩⟩
      rw [hd, Function.update_self]
      exact hlines
    · rw [Function.update_of_ne hd]
      exact Or.inl ⟨rfl, if_neg fun h => hd h.2⟩
  · unfold answers at hdel
    split at hdel
    · simp at hdel
    · simp at hdel
    · cases hdel

theorem Honest.goes_deliver (ht : Honest engine t)
    (ht' : act engine t (.event (.deliver c x)) = some t') :
    Goes engine t t' (.event (.deliver c x)) := by
  obtain ⟨net, hnet, hcalls⟩ := Option.bind_eq_some_iff.mp ht'
  obtain ⟨made, hmade, rfl⟩ := Option.map_eq_some_iff.mp hcalls
  obtain ⟨net', hnet', hinv⟩ := ht.inv.deliver c x
  obtain rfl := Option.some.inj (hnet'.symm.trans hnet)
  rw [next, deliver] at hnet
  split at hnet
  · rename_i line rest clnt hlines hfind
    obtain ⟨s', hs', rfl⟩ := Option.map_eq_some_iff.mp hnet
    rw [deliverCalls, hlines] at hmade
    obtain ⟨new, hnew, rfl⟩ := Option.map_eq_some_iff.mp hmade
    exact ht.goes_taken hlines (Option.isSome_of_eq_some hfind) hs' hinv hnew _
  · rename_i hnone
    obtain rfl := Option.some.inj hnet
    have hsame : made = t.calls := by
      rcases deliverCalls_cases hmade with hsame | ⟨d, y, line, rest, new, he, hlines, hnew, rfl⟩
      · exact hsame
      · obtain ⟨rfl, rfl⟩ := Event.deliver.inj he
        have hfind : (t.net.state x).findClient c = none :=
          Option.eq_none_iff_forall_ne_some.mpr fun clnt => hnone line rest clnt hlines
        rw [receiveMsg, hfind] at hnew
        obtain rfl := Option.some.inj hnew
        funext y d
        split
        · exact List.append_nil _
        · rfl
    rw [hsame]
    exact ⟨ht.inv, x, [], steps_same t x, fun hin => absurd hin List.not_mem_nil⟩

/-- What the application may do; a message has none of the characters of the protocol. -/
def Permitted (engine : Engine Code) (t : Traffic Agent Code) : Act Agent → Prop
  | .event e => Allowed engine t.net e
  | .send _ buffer => (lf ∉ buffer ∧ 0 ∉ buffer) ∧ argEnd ∉ buffer

theorem Honest.goes_send (ht : Honest engine t) {buffer : Str}
    (hplain : (lf ∉ buffer ∧ 0 ∉ buffer) ∧ argEnd ∉ buffer) (a : Act Agent) :
    Goes engine t { t.move (t.net.call x (ivySendMsg engine (t.net.state x) buffer).1) with
      said := Function.update t.said x (buffer :: t.said x) } a := by
  have hok := ht.inv.agents x
  have hlocal := hok.sends_message hplain.1
  have hmem : buffer ∈ Function.update t.said x (buffer :: t.said x) x := by
    rw [Function.update_self]
    exact List.mem_cons_self
  refine ⟨ht.inv.call hlocal, x, _, steps_put t.net rfl rfl (fun _ _ _ => id) (fun _ _ _ => id)
    (fun c _ _ => hlocal.opens c) (fun _ _ => rfl)
    (fun y message hmessage => ?_) (fun y message hmessage => ?_) (hok.moves_send hplain.1 hmem)
    (fun c p hp => Or.inl (hlocal.registered_eq c ▸ hp)) fun c => Or.inl ⟨rfl, rfl⟩, by simp⟩
  · by_cases hy : y = x
    · rw [hy] at hmessage ⊢
      rw [Function.update_self]
      exact List.mem_cons_of_mem _ hmessage
    · rwa [Function.update_of_ne hy]
  · by_cases hy : y = x
    · rw [hy] at hmessage ⊢
      rw [Function.update_self] at hmessage
      rcases List.mem_cons.mp hmessage with rfl | hmessage
      · exact Or.inr hplain.2
      · exact Or.inl hmessage
    · rw [Function.update_of_ne hy] at hmessage
      exact Or.inl hmessage

theorem Honest.goes [Nonempty Agent] (ht : Honest engine t) {a : Act Agent}
    (ha : Permitted engine t a) (ht' : act engine t a = some t') : Goes engine t t' a := by
  cases a with
  | send x buffer => exact Option.some.inj ht' ▸ ht.goes_send ha _
  | event e =>
    obtain ⟨net, hnet, hcalls⟩ := Option.bind_eq_some_iff.mp ht'
    cases e with
    | deliver c x => exact ht.goes_deliver ht'
    | bind x r =>
      obtain rfl := Option.some.inj hcalls
      obtain ⟨s', hs', rfl⟩ := Option.map_eq_some_iff.mp hnet
      obtain ⟨u, hu, hlocal⟩ := (ht.inv.agents x).bind ha.1 ha.2
      obtain rfl := Option.some.inj (hu.symm.trans hs')
      exact ⟨ht.inv.call hlocal, x, _, steps_call t.net rfl rfl (fun _ _ _ => id)
        (fun _ _ _ => id) (fun c _ _ => hlocal.opens c)
        ((ht.inv.agents x).moves_bind ha.1 hs') fun c p hp => hlocal.registered_eq c ▸ hp,
        by simp⟩
    | unbind x addr =>
      obtain rfl := Option.some.inj hcalls
      obtain ⟨s', hs', rfl⟩ := Option.map_eq_some_iff.mp hnet
      obtain ⟨u, hu, hlocal⟩ := (ht.inv.agents x).unbind ha
      obtain rfl := Option.some.inj (hu.symm.trans hs')
      exact ⟨ht.inv.call hlocal, x, _, steps_call t.net rfl rfl (fun _ _ _ => id)
        (fun _ _ _ => id) (fun c _ _ => hlocal.opens c)
        ((ht.inv.agents x).moves_unbind hs') fun c p hp => hlocal.registered_eq c ▸ hp,
        fun _ => ⟨addr, rfl⟩⟩
    | connect x y c appname callbacks =>
      obtain rfl := Option.some.inj hcalls
      exact ht.goes_connect ha hnet _
    | accept c appname callbacks =>
      obtain rfl := Option.some.inj hcalls
      exact ht.goes_accept ha hnet _
    | drop c x =>
      obtain rfl := Option.some.inj hcalls
      exact ht.goes_drop hnet _

theorem Honest.step_act [Nonempty Agent] (ht : Honest engine t) {a : Act Agent}
    (ha : Permitted engine t a) (ht' : act engine t a = some t') : Honest engine t' := by
  obtain ⟨hinv, x, kinds, hsteps, -⟩ := ht.goes ha ht'
  exact ht.step hinv hsteps

structure Accounted (engine : Engine Code) (t : Traffic Agent Code) : Prop where
  honest : Honest engine t
  calls : ∀ x c, ∀ call ∈ t.calls x c, Grounded engine t x c call

theorem Accounted.step [Nonempty Agent] (ht : Accounted engine t) {a : Act Agent}
    (ha : Permitted engine t a) (ht' : act engine t a = some t') : Accounted engine t' := by
  refine ⟨ht.honest.step_act ha ht', fun y c call hcall => ?_⟩
  obtain ⟨-, x, kinds, hsteps, -⟩ := ht.honest.goes ha ht'
  refine Grounded.step hsteps ?_
  by_cases hy : y = x
  · rw [hy] at hcall ⊢
    rcases hsteps.own c with ⟨-, hsame⟩ | ⟨line, made, hline, hmade, hcalls⟩
    · exact ht.calls x c call (hsame ▸ hcall)
    · rw [hcalls, List.mem_append] at hcall
      rcases hcall with hcall | hcall
      · exact ht.calls x c call hcall
      · exact ht.honest.grounded (hline ▸ List.mem_cons_self) hmade hcall
  · rw [(hsteps.others y hy).2] at hcall
    exact ht.calls y c call hcall

end Act

/-- Whatever the interleaving, the callback of a binding is called for a message of the peer that
its regexp matches, with the captures of the message. -/
theorem calls_justified (engine : Engine Code) (start : Agent → Ivy Code)
    (hstart : ∀ x, Start (start x))
    (hready : ∀ x message, (start x).readyMessage = some message → argEnd ∉ message)
    (acts : List (Act Agent))
    (hpermitted : Along (act engine) (Permitted engine) (Traffic.init start) acts)
    {t : Traffic Agent Code} (hrun : run (act engine) (Traffic.init start) acts = some t)
    {x : Agent} {c : Handle} {call : Call} (hcall : call ∈ t.calls x c) :
    ∃ y, Joins t.net c y x ∧ (call.rcv.id, call.rcv.regexp) ∈ t.bound x ∧
      ∃ message ∈ t.said y, ∃ groups,
        ivyBindingExec engine (engine.compile call.rcv.regexp).toOption message = some groups ∧
          call.argv = groups.map (ivyBindingMatch message) := by
  have hinit : Accounted engine (Traffic.init start) :=
    ⟨honest_init hstart hready, fun _ _ _ hcall => absurd hcall List.not_mem_nil⟩
  have : Nonempty Agent := ⟨x⟩
  have haccounted := run_invariant (fun _ _ _ ht ha => ht.step ha) hinit hpermitted hrun
  exact haccounted.calls x c call hcall

def whole : Engine Str where
  compile expression := .ok expression
  exec expression message := if expression <:+: message then some [(0, message.length)] else none

def callRun : List (Act Bool) :=
  (greetingRun.map .event) ++ [.send true (ascii "abc"), .event (.deliver 1 false),
    .event (.deliver 1 false), .event (.deliver 1 false)]

theorem calls_justified_whole : ∃ t,
    run (act whole) (Traffic.init fun _ => default) callRun = some t ∧
      ∃ call ∈ t.calls false 1, call.argv = [ascii "abc"] ∧
        ∃ y, Joins t.net 1 y false ∧ (call.rcv.id, call.rcv.regexp) ∈ t.bound false ∧
          ∃ message ∈ t.said y, ∃ groups,
            ivyBindingExec whole (whole.compile call.rcv.regexp).toOption message = some groups ∧
              call.argv = groups.map (ivyBindingMatch message) := by
  have hstart : ∀ x : Bool, Start ((fun _ => default : Bool → Ivy Str) x) := fun _ =>
    ⟨rfl, rfl, rfl, ⟨List.not_mem_nil, List.not_mem_nil⟩, nofun⟩
  have hpermitted : Along (act whole) (Permitted whole) (Traffic.init fun _ => default) callRun :=
    ⟨⟨⟨by decide, ascii "a", rfl⟩, by decide⟩, fun _ _ => ⟨List.forall_mem_nil _, fun _ _ =>
      ⟨List.forall_mem_nil _, fun _ _ => ⟨trivial, fun _ _ => ⟨trivial, fun _ _ => ⟨trivial,
        fun _ _ => ⟨⟨⟨by decide, by decide⟩, by decide⟩, fun _ _ => ⟨trivial,
          fun _ _ => ⟨trivial, fun _ _ => ⟨trivial, fun _ _ => trivial⟩⟩⟩⟩⟩⟩⟩⟩⟩⟩
  have hcalls : (run (act whole) (Traffic.init fun _ => default) callRun).map
      (fun t => t.calls false 1) = some [⟨⟨0, 0, ascii "a"⟩, [ascii "abc"]⟩] := rfl
  obtain ⟨t, hrun, ht⟩ := Option.map_eq_some_iff.mp hcalls
  have hcall : (⟨⟨0, 0, ascii "a"⟩, [ascii "abc"]⟩ : Call) ∈ t.calls false 1 :=
    ht ▸ List.mem_cons_self
  exact ⟨t, hrun, _, hcall, rfl, calls_justified whole (fun _ => default) hstart (fun _ _ => nofun)
    callRun hpermitted hrun hcall⟩

end IvyBus.Network
