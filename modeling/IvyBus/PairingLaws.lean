import IvyBus.Raises

namespace IvyBus.Pairing

open Lib Ivy Closing
open Congestion (IvyApplicationEvent)

variable {Code : Type}

def Logs (a a' : Agent Code) (received : Handle → List IvyApplicationEvent) : Prop :=
  ∃ calls, a'.log = a.log ++ calls ∧ ∀ c, calls.filterMap (eventOf c) = received c

structure Same (a a' : Agent Code) : Prop where
  channels : a'.channels = a.channels
  readable : a'.readable = a.readable
  loop : a'.loop = a.loop
  application : a'.hooks.application = a.hooks.application

def connects (application : Bool) (cs : List Handle) (c : Handle) : List IvyApplicationEvent :=
  if application then cs.filterMap fun d => if d = c then some .connected else none else []

section Log

variable {engine : Engine Code} {a a' : Agent Code} {s' : Ivy Code} {c : Handle} {line : Str}
  {cs : List Handle} {calls : List Callback}

theorem logs_of_log (h : a'.log = a.log) : Logs a a' fun _ => [] :=
  ⟨[], h.trans (List.append_nil _).symm, fun _ => rfl⟩

theorem connects_nil (application : Bool) (c : Handle) : connects application [] c = [] := by
  cases application <;> rfl

theorem connects_self (application : Bool) (c : Handle) :
    connects application [c] c = if application then [.connected] else [] := by
  simp [connects]

theorem connects_of_ne {d : Handle} (hd : d ≠ c) (application : Bool) :
    connects application [c] d = [] := by
  simp [connects, hd.symm]

theorem eventOf_callback (hooks : Hooks) (os : List Output) (c : Handle) :
    (os.filterMap (callback hooks)).filterMap (eventOf c) =
      connects hooks.application (raised os) c := by
  rw [List.filterMap_filterMap]
  induction os with
  | nil => exact (connects_nil ..).symm
  | cons o os ih =>
    rw [List.filterMap_cons, ih]
    cases o with
    | connected d =>
      change _ = connects _ (d :: raised os) c
      cases happ : hooks.application with
      | true =>
        by_cases heq : d = c
        · simp [callback, happ, eventOf, connects, heq]
        · simp [callback, happ, eventOf, connects, heq]
      | false => simp [callback, happ, connects]
    | send d bytes => rfl
    | close d => rfl
    | bind d id r event =>
      change _ = connects _ (raised os) c
      cases hbind : hooks.bind with
      | true => simp [callback, hbind, eventOf]
      | false => simp [callback, hbind]

theorem same_put (a : Agent Code) (s' : Ivy Code) (calls : List Callback) :
    Same a (a.put s' calls) :=
  ⟨rfl, rfl, rfl, rfl⟩

theorem logs_put (hraises : Raises a.ivy s' cs) (hcalls : ∀ c, calls.filterMap (eventOf c) = []) :
    Logs a (a.put s' calls) (connects a.hooks.application cs) := by
  obtain ⟨os, hos, rfl⟩ := hraises
  refine ⟨os.filterMap (callback a.hooks) ++ calls, ?_, fun c => ?_⟩
  · change a.log ++ (s'.outputs.drop a.ivy.outputs.length).filterMap _ ++ calls = _
    rw [hos, List.drop_left, List.append_assoc]
  · rw [List.filterMap_append, hcalls, List.append_nil, eventOf_callback]

theorem logs_quiet (hraises : Raises a.ivy s' []) : Logs a (a.put s' []) fun _ => [] := by
  obtain ⟨calls, hlog, hevents⟩ := @logs_put Code a s' [] [] hraises fun _ => rfl
  exact ⟨calls, hlog, fun c => (hevents c).trans (connects_nil _ c)⟩

theorem eventOf_calls {h : Header} (hcalls : Closing.calls a c h = some calls) (d : Handle) :
    calls.filterMap (eventOf d) = [] := by
  have hnone (b : Bool) {call : Callback} (hcall : eventOf d call = none) :
      (if b then [call] else []).filterMap (eventOf d) = [] := by
    cases b with
    | true => exact List.filterMap_cons_none hcall
    | false => rfl
  rw [Closing.calls] at hcalls
  split at hcalls
  · split at hcalls
    · obtain ⟨argv, -, rfl⟩ := Option.map_eq_some_iff.mp hcalls
      exact hnone _ rfl
    · exact Option.some.inj hcalls ▸ rfl
  · exact Option.some.inj hcalls ▸ hnone _ rfl
  · exact Option.some.inj hcalls ▸ hnone _ rfl
  · exact Option.some.inj hcalls ▸ hnone _ rfl
  · exact Option.some.inj hcalls ▸ rfl

theorem same_finish (a : Agent Code) (c : Handle) (h : Header) :
    Same a (a.finish c h) ∧ (a.finish c h).log = a.log := by
  rw [Agent.finish]
  split
  · exact ⟨⟨rfl, rfl, rfl, rfl⟩, rfl⟩
  · split
    · exact ⟨⟨rfl, rfl, rfl, rfl⟩, rfl⟩
    · exact ⟨⟨rfl, rfl, rfl, rfl⟩, rfl⟩
  · exact ⟨⟨rfl, rfl, rfl, rfl⟩, rfl⟩

/-- A line raises `Connected` at most, for its own connection. -/
theorem interpretation_logs (h : interpretation engine a c line = some a') :
    Same a a' ∧ Logs a a'
      (connects a.hooks.application (if heardEnd a.ivy c line then [c] else [])) := by
  rw [interpretation] at h
  split at h
  · obtain ⟨s', hs', rfl⟩ := Option.map_eq_some_iff.mp h
    exact ⟨same_put a s' [], logs_put (raises_receive hs') fun _ => rfl⟩
  · obtain ⟨calls, hcalls, hrest⟩ := Option.bind_eq_some_iff.mp h
    obtain ⟨s', hs', rfl⟩ := Option.map_eq_some_iff.mp hrest
    obtain ⟨hsame, hlog⟩ := same_finish (a.put s' calls) c ‹Header›
    obtain ⟨cs, hcs, hevents⟩ := logs_put (raises_receive hs') (eventOf_calls hcalls)
    exact ⟨⟨hsame.channels, hsame.readable, hsame.loop, hsame.application⟩, cs, hlog.trans hcs,
      hevents⟩

end Log

def AllPaired (p : Peers Code) : Prop := ∀ c, Paired (events p c)

structure Inv (p : Peers Code) : Prop where
  nodup : p.agent.channels.Nodup
  readable : ∀ c, p.agent.readable c = true → c ∈ p.agent.channels
  loop : ∀ c lines, p.agent.loop = some (c, lines) → c ∈ p.agent.channels
  start_le : ∀ c, p.start c ≤ p.agent.log.length
  counted : ∀ c ∈ p.agent.channels, events p c =
    if p.agent.hooks.application then List.replicate (p.ends c) .connected else []

section Steps

variable {engine : Engine Code} {p p' : Peers Code} {a' : Agent Code} {c : Handle}

theorem events_of_logs (h : Inv p) {received : Handle → List IvyApplicationEvent}
    (hlogs : Logs p.agent a' received) (ends : Handle → Nat) (c : Handle) :
    events ⟨a', p.start, ends⟩ c = events p c ++ received c := by
  obtain ⟨calls, hlog, hevents⟩ := hlogs
  rw [events, hlog, List.drop_append_of_le_length (h.start_le c), List.filterMap_append, hevents]
  rfl

theorem start_le_of_logs (h : Inv p) {received : Handle → List IvyApplicationEvent}
    (hlogs : Logs p.agent a' received) (c : Handle) : p.start c ≤ a'.log.length := by
  obtain ⟨calls, hlog, -⟩ := hlogs
  rw [hlog, List.length_append]
  exact (h.start_le c).trans (Nat.le_add_right ..)

theorem paired_replicate {n : Nat} : Paired (List.replicate n .connected) ↔ n ≤ 1 := by
  match n with
  | 0 => exact iff_of_true (.inl rfl) (Nat.zero_le 1)
  | 1 => exact iff_of_true (.inr (.inl rfl)) le_rfl
  | n + 2 =>
    refine iff_of_false ?_ (by omega)
    rintro (h | h | h) <;> simp [List.replicate_succ] at h

theorem paired_disconnected {n : Nat} :
    Paired (List.replicate n .connected ++ [.disconnected]) ↔ n = 1 := by
  match n with
  | 0 =>
    refine iff_of_false ?_ (by omega)
    rintro (h | h | h) <;> simp at h
  | 1 => exact iff_of_true (.inr (.inr rfl)) rfl
  | n + 2 =>
    refine iff_of_false ?_ (by omega)
    rintro (h | h | h) <;> simp [List.replicate_succ] at h

theorem Inv.still (h : Inv p) (hchannels : a'.channels = p.agent.channels)
    (hreadable : ∀ c, a'.readable c = true → p.agent.readable c = true)
    (hloop : ∀ c lines, a'.loop = some (c, lines) → c ∈ p.agent.channels)
    (happ : a'.hooks.application = p.agent.hooks.application)
    (hlogs : Logs p.agent a' fun _ => []) :
    Inv { p with agent := a' } ∧ (AllPaired p → AllPaired { p with agent := a' }) := by
  have hevents (c : Handle) : events { p with agent := a' } c = events p c :=
    (events_of_logs h hlogs p.ends c).trans (List.append_nil _)
  refine ⟨⟨hchannels ▸ h.nodup, ?_, ?_, @start_le_of_logs Code p a' h _ hlogs, ?_⟩,
    fun hpaired c => ?_⟩
  · exact fun c hc => hchannels ▸ h.readable c (hreadable c hc)
  · exact fun c lines hc => hchannels ▸ hloop c lines hc
  · intro c hc
    rw [hevents, h.counted c (hchannels ▸ hc)]
    exact happ ▸ rfl
  · exact hevents c ▸ hpaired c

theorem Inv.same (h : Inv p) (hsame : Same p.agent a') (hlogs : Logs p.agent a' fun _ => []) :
    Inv { p with agent := a' } ∧ (AllPaired p → AllPaired { p with agent := a' }) :=
  h.still hsame.channels (fun _ hc => hsame.readable ▸ hc)
    (fun c lines hc => h.loop c lines (hsame.loop ▸ hc)) hsame.application hlogs

theorem Inv.opened (h : Inv p) (hclosed : c ∉ p.agent.channels)
    (hchannels : a'.channels = c :: p.agent.channels)
    (hreadable : ∀ d, a'.readable d = true → p.agent.readable d = true)
    (hloop : ∀ d lines, a'.loop = some (d, lines) → d ∈ p.agent.channels)
    (happ : a'.hooks.application = p.agent.hooks.application)
    (hlogs : Logs p.agent a' fun _ => []) :
    let p' : Peers Code := ⟨a', Function.update p.start c p.agent.log.length,
      Function.update p.ends c 0⟩
    Inv p' ∧ (AllPaired p → AllPaired p') := by
  intro p'
  have hnew : events p' c = [] := by
    obtain ⟨calls, hlog, hevents⟩ := hlogs
    change (a'.log.drop (Function.update p.start c p.agent.log.length c)).filterMap (eventOf c) = []
    rw [Function.update_self, hlog, List.drop_left, hevents]
  have hold (d : Handle) (hd : d ≠ c) : events p' d = events p d := by
    change (a'.log.drop (Function.update p.start c p.agent.log.length d)).filterMap (eventOf d) = _
    rw [Function.update_of_ne hd]
    exact (events_of_logs h hlogs p.ends d).trans (List.append_nil _)
  refine ⟨⟨?_, ?_, ?_, fun d => ?_, fun d hd => ?_⟩, fun hpaired d => ?_⟩
  · change a'.channels.Nodup
    rw [hchannels]
    exact List.nodup_cons.mpr ⟨hclosed, h.nodup⟩
  · exact fun d hd => hchannels ▸ List.mem_cons_of_mem c (h.readable d (hreadable d hd))
  · exact fun d lines hd => hchannels ▸ List.mem_cons_of_mem c (hloop d lines hd)
  · change Function.update p.start c p.agent.log.length d ≤ a'.log.length
    by_cases heq : d = c
    · obtain ⟨calls, hlog, -⟩ := hlogs
      rw [heq, Function.update_self, hlog, List.length_append]
      exact Nat.le_add_right ..
    · rw [Function.update_of_ne heq]
      exact start_le_of_logs h hlogs d
  · by_cases heq : d = c
    · rw [heq, hnew]
      change [] = if _ then List.replicate (Function.update p.ends c 0 c) _ else []
      rw [Function.update_self]
      split <;> rfl
    · rw [hold d heq]
      change _ = if a'.hooks.application then
        List.replicate (Function.update p.ends c 0 d) _ else []
      rw [Function.update_of_ne heq, happ]
      exact h.counted d ((List.mem_cons.mp (hchannels ▸ hd)).resolve_left heq)
  · by_cases heq : d = c
    · exact .inl (heq ▸ hnew)
    · exact (hold d heq).symm ▸ hpaired d

theorem Inv.heard (h : Inv p) (hc : c ∈ p.agent.channels) (hsame : Same p.agent a')
    (hlogs : Logs p.agent a' (connects p.agent.hooks.application [c])) :
    let p' : Peers Code := ⟨a', p.start, Function.update p.ends c (p.ends c + 1)⟩
    Inv p' ∧ (AllPaired p →
      (AllPaired p' ↔ (p.agent.hooks.application = true → p.ends c = 0))) := by
  intro p'
  have hevents (d : Handle) :
      events p' d = events p d ++ connects p.agent.hooks.application [c] d :=
    events_of_logs h hlogs _ d
  have hself : events p' c = if p.agent.hooks.application then
      List.replicate (p.ends c + 1) .connected else [] := by
    rw [hevents, h.counted c hc, connects_self]
    split
    · exact List.replicate_succ'.symm
    · rfl
  have hother (d : Handle) (hd : d ≠ c) : events p' d = events p d := by
    rw [hevents, connects_of_ne hd, List.append_nil]
  refine ⟨⟨hsame.channels ▸ h.nodup, ?_, ?_, @start_le_of_logs Code p a' h _ hlogs,
    fun d hd => ?_⟩, fun hpaired => ?_⟩
  · intro d hd
    exact hsame.channels ▸ h.readable d (hsame.readable ▸ hd)
  · intro d lines hd
    exact hsame.channels ▸ h.loop d lines (hsame.loop ▸ hd)
  · change _ = if a'.hooks.application then
      List.replicate (Function.update p.ends c (p.ends c + 1) d) _ else []
    rw [hsame.application]
    by_cases heq : d = c
    · rw [heq, hself, Function.update_self]
    · rw [hother d heq, Function.update_of_ne heq]
      exact h.counted d (hsame.channels ▸ hd)
  · have hiff : AllPaired p' ↔ Paired (events p' c) := by
      refine ⟨fun hall => hall c, fun hpair d => ?_⟩
      by_cases heq : d = c
      · exact heq ▸ hpair
      · exact (hother d heq).symm ▸ hpaired d
    rw [hiff, hself]
    cases p.agent.hooks.application with
    | true =>
      rw [if_pos rfl, paired_replicate]
      exact ⟨fun hle _ => by omega, fun hzero => by rw [hzero rfl]⟩
    | false => exact iff_of_true (.inl rfl) nofun

theorem eventOf_disconnected {l : List Handle} (hnodup : l.Nodup) (c : Handle) :
    (l.map Callback.disconnected).filterMap (eventOf c) =
      if c ∈ l then [.disconnected] else [] := by
  induction l with
  | nil => rfl
  | cons d l ih =>
    obtain ⟨hd, hnodup⟩ := List.nodup_cons.mp hnodup
    rw [List.map_cons, List.filterMap_cons, ih hnodup]
    by_cases heq : d = c
    · subst heq
      simp [eventOf, hd]
    · simp [eventOf, heq, Ne.symm heq]

theorem deleted_logs {a a' : Agent Code} (hnodup : a.channels.Nodup)
    (ha' : channelDefferedDelete a = some a') :
    Logs a a' (fun c =>
      if a.hooks.application = true ∧ c ∈ a.channels.filter a.tobedeleted then [.disconnected]
      else []) := by
  obtain ⟨s', -, rfl⟩ := Option.map_eq_some_iff.mp ha'
  refine ⟨_, rfl, fun c => ?_⟩
  cases a.hooks.application with
  | true =>
    rw [if_pos rfl, eventOf_disconnected (hnodup.filter _)]
    simp only [true_and]
  | false => rfl

theorem Inv.deleted (h : Inv p) (hloop : p.agent.loop = none)
    (ha' : channelDefferedDelete p.agent = some a') :
    Inv { p with agent := a' } ∧ (AllPaired p → (AllPaired { p with agent := a' } ↔
      (p.agent.hooks.application = true →
        ∀ c ∈ p.agent.channels, p.agent.tobedeleted c = true → p.ends c = 1))) := by
  have hlogs := deleted_logs h.nodup ha'
  obtain ⟨s', -, rfl⟩ := Option.map_eq_some_iff.mp ha'
  generalize hp' : ({ p with agent := _ } : Peers Code) = p'
  have hevents (c : Handle) : events p' c = events p c ++
      if p.agent.hooks.application = true ∧ c ∈ p.agent.channels.filter p.agent.tobedeleted
      then [.disconnected] else [] :=
    hp' ▸ events_of_logs h hlogs p.ends c
  refine ⟨?_, fun hpaired => ?_⟩
  · subst hp'
    refine ⟨h.nodup.filter _, fun c hc => of_decide_eq_true hc, fun c lines hc => ?_,
      @start_le_of_logs Code p _ h _ hlogs, fun c hc => ?_⟩
    · cases hloop.symm.trans hc
    · obtain ⟨hmem, hopen⟩ := List.mem_filter.mp hc
      rw [Bool.not_eq_true'] at hopen
      have hnot : c ∉ p.agent.channels.filter p.agent.tobedeleted := fun hmarked => by
        rw [(List.mem_filter.mp hmarked).2] at hopen
        cases hopen
      rw [hevents, if_neg fun hboth => hnot hboth.2, List.append_nil]
      exact h.counted c hmem
  · constructor
    · intro hall happ c hc hmark
      have hpair := hall c
      rw [hevents, if_pos ⟨happ, List.mem_filter.mpr ⟨hc, hmark⟩⟩, h.counted c hc, if_pos happ,
        paired_disconnected] at hpair
      exact hpair
    · intro hturn c
      rw [hevents]
      split
      next hboth =>
        obtain ⟨happ, hmarked⟩ := hboth
        obtain ⟨hc, hmark⟩ := List.mem_filter.mp hmarked
        rw [h.counted c hc, if_pos happ, paired_disconnected]
        exact hturn happ c hc hmark
      next =>
        rw [List.append_nil]
        exact hpaired c

theorem setUp_of_busy
    (hbusy : (p.agent.exited || p.agent.loop.isSome || isOpen p.agent c) = true) :
    p.setUp c = p :=
  if_pos hbusy

theorem findClient_of_idle
    (hidle : (p.agent.exited || p.agent.loop.isSome || isOpen p.agent c) = false) :
    p.agent.ivy.findClient c = none := by
  have hopen : isOpen p.agent c = false := (Bool.or_eq_false_iff.mp hidle).2
  simpa using (Bool.or_eq_false_iff.mp hopen).2

theorem Inv.setUp (h : Inv p) (hidle : (p.agent.exited || p.agent.loop.isSome ||
      isOpen p.agent c) = false) (info : SocketInfo) {s' : Ivy Code}
    (hraises : Raises (p.agent.open c info).ivy s' []) :
    let p' : Peers Code := { p.setUp c with agent := (p.agent.open c info).put s' [] }
    Inv p' ∧ (AllPaired p → AllPaired p') := by
  have hopen : isOpen p.agent c = false := (Bool.or_eq_false_iff.mp hidle).2
  have hclosed : c ∉ p.agent.channels := of_decide_eq_false (Bool.or_eq_false_iff.mp hopen).1
  rw [Peers.setUp, if_neg (by rw [hidle]; exact Bool.false_ne_true)]
  refine h.opened hclosed rfl (fun d hd => ?_) (fun d lines hd => h.loop d lines hd) rfl ?_
  · change Function.update p.agent.readable c false d = true at hd
    by_cases heq : d = c
    · rw [heq, Function.update_self] at hd
      cases hd
    · rwa [Function.update_of_ne heq] at hd
  · exact logs_quiet hraises

theorem Inv.read (h : Inv p) {r : Socket.RecvResult}
    (ha' : Closing.next engine p.agent (.read c r) = some a') :
    Inv { p with agent := a' } ∧ (AllPaired p → AllPaired { p with agent := a' }) := by
  rw [Closing.next] at ha'
  split at ha'
  next => exact Option.some.inj ha' ▸ ⟨h, id⟩
  next hbusy =>
    simp only [Bool.or_eq_true, not_or] at hbusy
    split at ha'
    next =>
      rw [← Option.some.inj ha']
      refine h.still rfl (fun d hd => ?_) (fun d lines hd => ?_) rfl (logs_of_log rfl)
      · change Function.update p.agent.readable c false d = true at hd
        by_cases heq : d = c
        · rw [heq, Function.update_self] at hd
          cases hd
        · rwa [Function.update_of_ne heq] at hd
      · obtain ⟨rfl, -⟩ := Prod.mk.inj (Option.some.inj hd)
        exact h.readable _ (by simpa using hbusy.2)
    next => cases ha'

theorem Inv.dispatch (h : Inv p) (hexit : p.agent.exited = false)
    (ha' : Closing.dispatch engine p.agent = some a') :
    let p' : Peers Code := { p.hear with agent := a' }
    Inv p' ∧ (AllPaired p → (AllPaired p' ↔ InTurn p .dispatch)) := by
  rw [Closing.dispatch] at ha'
  have hturn : InTurn p .dispatch ↔ (p.agent.hooks.application = true →
      ∀ c, endOf p.agent = some c → p.ends c = 0) :=
    ⟨fun hturn => hturn hexit, fun hturn _ => hturn⟩
  rw [hturn, Peers.hear]
  split at ha'
  next c line rest hloop =>
    have hend : endOf p.agent = if heardEnd p.agent.ivy c line then some c else none := by
      rw [endOf, hloop]
    have hc : c ∈ p.agent.channels := h.loop c _ hloop
    -- the line has left the buffer before it is passed on
    have hpopped : Inv { p with agent := { p.agent with loop := some (c, rest) } } := by
      refine (@Inv.still Code p { p.agent with loop := some (c, rest) } h rfl (fun _ => id)
        (fun d lines hd => ?_) rfl (logs_of_log rfl)).1
      obtain ⟨rfl, -⟩ := Prod.mk.inj (Option.some.inj hd)
      exact hc
    obtain ⟨hsame, hlogs⟩ := interpretation_logs ha'
    rw [hend]
    cases hheard : heardEnd p.agent.ivy c line with
    | true =>
      change Logs _ _ (connects _ (if heardEnd p.agent.ivy c line then [c] else [])) at hlogs
      rw [hheard] at hlogs
      obtain ⟨hinv, hiff⟩ := hpopped.heard hc hsame hlogs
      simp only [if_true, hexit, Bool.false_eq_true, if_false]
      refine ⟨hinv, fun hpaired => (hiff hpaired).trans ?_⟩
      exact ⟨fun hzero happ d hd => Option.some.inj hd ▸ hzero happ,
        fun hall happ => hall happ c rfl⟩
    | false =>
      change Logs _ _ (connects _ (if heardEnd p.agent.ivy c line then [c] else [])) at hlogs
      rw [hheard] at hlogs
      have hnothing : Logs { p.agent with loop := some (c, rest) } a' fun _ => [] := by
        obtain ⟨calls, hlog, hevents⟩ := hlogs
        exact ⟨calls, hlog, fun d => (hevents d).trans (connects_nil _ d)⟩
      obtain ⟨hinv, hpaired'⟩ := hpopped.same hsame hnothing
      exact ⟨hinv, fun hpaired => iff_of_true (hpaired' hpaired) fun _ d hd => by cases hd⟩
  next hloop =>
    have hend : endOf p.agent = none := by
      rw [endOf]
      split
      next c line rest heq => exact absurd heq (hloop c line rest)
      next => rfl
    rw [hend, ← Option.some.inj ha']
    obtain ⟨hinv, hpaired'⟩ := @Inv.still Code p { p.agent with loop := none } h rfl
      (fun _ => id) (fun _ _ hd => by cases hd) rfl (logs_of_log rfl)
    exact ⟨hinv, fun hpaired => iff_of_true (hpaired' hpaired) fun _ d hd => by cases hd⟩

theorem Inv.joins (h : Inv p) (info : SocketInfo) {s' : Ivy Code} {a' : Agent Code}
    (ha' : (if p.agent.exited || p.agent.loop.isSome || isOpen p.agent c then some p.agent
      else some ((p.agent.open c info).put s' [])) = some a')
    (hraises : (p.agent.open c info).ivy.findClient c = none →
      Raises (p.agent.open c info).ivy s' []) :
    let p' : Peers Code := { p.setUp c with agent := a' }
    Inv p' ∧ (AllPaired p → AllPaired p') := by
  split at ha'
  next hbusy =>
    rw [← Option.some.inj ha', setUp_of_busy hbusy]
    exact ⟨h, id⟩
  next hidle =>
    rw [Bool.not_eq_true] at hidle
    rw [← Option.some.inj ha']
    exact h.setUp hidle info (hraises (findClient_of_idle hidle))

/-- What one step does: the invariant stays, and all connections have their events in pairs exactly
when the step is in turn. -/
theorem Inv.next (h : Inv p) {e : Event} (hp' : next engine p e = some p') :
    Inv p' ∧ (AllPaired p → (AllPaired p' ↔ InTurn p e)) := by
  have hall {p'' : Peers Code} (hstep : Inv p'' ∧ (AllPaired p → AllPaired p'')) :
      Inv p'' ∧ (AllPaired p → (AllPaired p'' ↔ True)) :=
    ⟨hstep.1, fun hpaired => iff_true_intro (hstep.2 hpaired)⟩
  rw [Pairing.next] at hp'
  split at hp'
  next hkeeps =>
    obtain ⟨a', ha', rfl⟩ := Option.map_eq_some_iff.mp hp'
    cases e with
    | select =>
      rw [Closing.next] at ha'
      split at ha'
      next hbusy =>
        rw [← Option.some.inj ha']
        refine ⟨h, fun hpaired => iff_of_true hpaired fun hexit hloop => ?_⟩
        rw [hexit, hloop] at hbusy
        cases hbusy
      next hbusy =>
        simp only [Bool.or_eq_true, not_or, Bool.not_eq_true] at hbusy
        have hloop : p.agent.loop = none := by simpa using hbusy.2
        obtain ⟨hinv, hiff⟩ := h.deleted hloop ha'
        refine ⟨hinv, fun hpaired => (hiff hpaired).trans ?_⟩
        exact ⟨fun hturn _ _ => hturn, fun hturn => hturn hbusy.1 hloop⟩
    | read c r => exact hall (h.read ha')
    | dispatch =>
      rw [Closing.next] at ha'
      split at ha'
      next hexit =>
        have hnote : p.note .dispatch = p := by
          rw [Peers.note, Peers.hear]
          split
          · exact if_pos hexit
          · rfl
        rw [hnote, ← Option.some.inj ha']
        refine ⟨h, fun hpaired => iff_of_true hpaired fun hopen => ?_⟩
        rw [hexit] at hopen
        cases hopen
      next hexit => exact h.dispatch (by simpa using hexit) ha'
    | connect c info appname =>
      exact hall (h.joins info ha' fun hnew => (mutters_sendService engine hnew appname).raises)
    | accept c info appname =>
      exact hall (h.joins info ha' fun hnew => (mutters_clientCreate engine hnew appname).raises)
    | bind regexp =>
      rw [Closing.next] at ha'
      split at ha'
      next => exact Option.some.inj ha' ▸ hall ⟨h, id⟩
      next =>
        obtain ⟨s', hs', rfl⟩ := Option.map_eq_some_iff.mp ha'
        exact hall (h.same (same_put ..)
          (logs_quiet (Raises.of_announces (Handles.announces_bind hs'))))
    | unbind addr =>
      rw [Closing.next] at ha'
      split at ha'
      next => exact Option.some.inj ha' ▸ hall ⟨h, id⟩
      next =>
        obtain ⟨s', hs', rfl⟩ := Option.map_eq_some_iff.mp ha'
        exact hall (h.same (same_put ..)
          (logs_quiet (Raises.of_announces (Handles.announces_unbind hs'))))
    | ping c =>
      rw [Closing.next] at ha'
      split at ha'
      next => exact Option.some.inj ha' ▸ hall ⟨h, id⟩
      next => exact Option.some.inj ha' ▸ hall (h.same ⟨rfl, rfl, rfl, rfl⟩ (logs_of_log rfl))
    | set hooks =>
      rw [← Option.some.inj ha']
      exact hall (h.same ⟨rfl, rfl, rfl, of_decide_eq_true hkeeps⟩ (logs_of_log rfl))
  next => cases hp'

end Steps

theorem inv_alone (s : Ivy Code) (hooks : Hooks) : Inv (alone s hooks) :=
  ⟨List.nodup_nil, nofun, nofun, fun _ => le_rfl, nofun⟩

/-- The events of all connections come in pairs in every state of a run exactly when each of its
steps is in turn. -/
theorem events_paired_iff (engine : Engine Code) (s : Ivy Code) (hooks : Hooks) (es : List Event) :
    Along (next engine)
        (fun p e => ∀ p', next engine p e = some p' → ∀ c, Paired (events p' c))
        (alone s hooks) es ↔
      Along (next engine) (fun p e => ∀ p', next engine p e = some p' → InTurn p e)
        (alone s hooks) es := by
  refine along_iff (I := fun p => Inv p ∧ AllPaired p) (fun p e hp => ?_)
    (fun p e p' hp hturn hp' => ?_) ⟨inv_alone s hooks, fun _ => .inl rfl⟩ es
  · exact forall_congr' fun p' => forall_congr' fun hp' => (hp.1.next hp').2 hp.2
  · obtain ⟨hinv, hiff⟩ := hp.1.next hp'
    exact ⟨hinv, (hiff hp.2).mpr (hturn p' hp')⟩

def endTwice : Str := header .endRegexp 0 ++ [lf] ++ header .endRegexp 0 ++ [lf]

/-- A peer that repeats its `EndRegexp` is connected twice, and one that leaves without it is
disconnected all the same. -/
theorem events_not_paired :
    (∃ p, run (next literal) (alone default allHooks) [.connect 1 ⟨1, 0, 0⟩ [], .select,
      .read 1 (.bytes endTwice), .dispatch, .dispatch] = some p ∧
      events p 1 = [.connected, .connected]) ∧
    ∃ p, run (next literal) (alone default allHooks) [.connect 1 ⟨1, 0, 0⟩ [], .select,
      .read 1 .error, .dispatch, .select] = some p ∧ events p 1 = [.disconnected] :=
  ⟨⟨_, rfl, by decide⟩, _, rfl, by decide⟩

end IvyBus.Pairing
