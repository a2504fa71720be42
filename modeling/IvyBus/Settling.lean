import IvyBus.Moves
import IvyBus.Lib.Drain

namespace IvyBus.Network

open Lib Ivy

variable {Agent Code : Type} {engine : Engine Code}

/-- The lines that are answered come before the others. -/
def rank (line : Str) : ℕ :=
  match kindOf line with
  | some .startRegexp => 1
  | some .endRegexp => 1
  | _ => 0

theorem kindOf_line (m : Message) : kindOf m.line = some m.kind := by
  rw [kindOf, m.parseHeader_line]
  exact MsgType.ofInt32_toInt32 m.kind

theorem rank_answers {m m' : Message} (h : m'.kind ∈ answers m.kind) :
    rank m'.line < rank m.line := by
  rw [rank, rank, kindOf_line, kindOf_line]
  unfold answers at h
  split at h
  · rename_i hkind
    rw [hkind, List.mem_singleton.mp h]
    decide
  · rename_i hkind
    rw [hkind, List.mem_singleton.mp h]
    decide
  · cases h

def Covers (ends : Finset (Handle × Agent)) (net : Net Agent Code) : Prop :=
  ∀ c x y, Joins net c y x → (c, x) ∈ ends

theorem Covers.of_ends {net net' : Net Agent Code}
    {ends : Finset (Handle × Agent)} (h : Covers ends net) (hends : net'.ends = net.ends) :
    Covers ends net' := by
  intro c x y hj
  rw [Joins, hends] at hj
  exact h c x y hj

variable [DecidableEq Agent]

/-- An agent takes a line from a connection that it has. -/
def Delivers (engine : Engine Code) (net net' : Net Agent Code) : Prop :=
  ∃ c x, net.flight c x ≠ [] ∧ ((net.state x).findClient c).isSome ∧
    deliver engine net c x = some net'

def queues (ends : Finset (Handle × Agent)) (net : Net Agent Code) (p : Handle × Agent) :
    List Str :=
  if p ∈ ends then net.flight p.1 p.2 else []

def added (ends : Finset (Handle × Agent)) (net : Net Agent Code) (x : Agent) (s' : Ivy Code)
    (p : Handle × Agent) : List Str :=
  if p ∈ ends ∧ p.2 ≠ x ∧ Joins net p.1 x p.2 then
    linesTo p.1 (s'.outputs.drop (net.state x).outputs.length)
  else []

section Settling

variable {net net' : Net Agent Code} {ends : Finset (Handle × Agent)}

theorem ends_connect {x y : Agent} {c : Handle} {appname : Str} {callbacks : List Greeting.Event}
    (h : connect engine net x y c appname callbacks = some net') :
    net'.ends = net.ends ∨ net'.ends = Function.update net.ends c (some (x, y)) := by
  rw [connect] at h
  split at h
  · exact Or.inl (congrArg Net.ends (Option.some.inj h)).symm
  · obtain ⟨s', -, rfl⟩ := Option.map_eq_some_iff.mp h
    exact Or.inr rfl

theorem ends_accept {c : Handle} {appname : Str} {callbacks : List Greeting.Event}
    (h : accept engine net c appname callbacks = some net') : net'.ends = net.ends := by
  rw [accept] at h
  split at h
  · obtain ⟨s', -, rfl⟩ := Option.map_eq_some_iff.mp h
    rfl
  · exact (congrArg Net.ends (Option.some.inj h)).symm

theorem ends_deliver {c : Handle} {x : Agent} (h : deliver engine net c x = some net') :
    net'.ends = net.ends := by
  rw [deliver] at h
  split at h
  · obtain ⟨s', -, rfl⟩ := Option.map_eq_some_iff.mp h
    rfl
  · rw [← Option.some.inj h]

theorem ends_next {e : Event Agent} (h : next engine net e = some net') :
    net'.ends = net.ends ∨ ∃ c x y, net'.ends = Function.update net.ends c (some (x, y)) := by
  cases e with
  | bind x r =>
    obtain ⟨s', -, rfl⟩ := Option.map_eq_some_iff.mp h
    exact Or.inl rfl
  | unbind x addr =>
    obtain ⟨s', -, rfl⟩ := Option.map_eq_some_iff.mp h
    exact Or.inl rfl
  | connect x y c appname callbacks =>
    exact (ends_connect h).imp_right fun hends => ⟨c, x, y, hends⟩
  | accept c appname callbacks => exact Or.inl (ends_accept h)
  | deliver c x => exact Or.inl (ends_deliver h)
  | drop c x =>
    obtain ⟨s', -, rfl⟩ := Option.map_eq_some_iff.mp h
    exact Or.inl rfl

theorem Covers.next (h : ∃ ends, Covers ends net) {e : Event Agent}
    (hnext : next engine net e = some net') : ∃ ends, Covers ends net' := by
  obtain ⟨ends, hcovers⟩ := h
  rcases ends_next hnext with hends | ⟨c, x, y, hends⟩
  · exact ⟨ends, hcovers.of_ends hends⟩
  · refine ⟨insert (c, x) (insert (c, y) ends), fun c' a b hj => ?_⟩
    rw [Joins, hends] at hj
    by_cases hc : c' = c
    · rw [hc, Function.update_self] at hj
      rw [hc]
      rcases hj with hj | hj
      · obtain ⟨-, rfl⟩ := Prod.mk.inj (Option.some.inj hj)
        exact Finset.mem_insert_of_mem (Finset.mem_insert_self ..)
      · obtain ⟨rfl, -⟩ := Prod.mk.inj (Option.some.inj hj)
        exact Finset.mem_insert_self ..
    · rw [Function.update_of_ne hc] at hj
      exact Finset.mem_insert_of_mem (Finset.mem_insert_of_mem (hcovers c' a b hj))

theorem handles_put {x : Agent} {c : Handle} {s' : Ivy Code} {line : Str} {rest : List Str}
    (hmem : (c, x) ∈ ends) (hlines : net.flight c x = line :: rest)
    (hlow : ∀ c', ∀ new ∈ linesTo c' (s'.outputs.drop (net.state x).outputs.length),
      rank new < rank line) : Handles rank (queues ends net) (queues ends
        (net.put x s' (Function.update (fun c => net.flight c x) c rest))) := by
  refine ⟨(c, x), line, rest, ?_, added ends net x s', ?_, fun p hp => ?_, fun p new hnew => ?_⟩
  · rw [queues, if_pos hmem]
    exact hlines
  · rw [added, if_neg fun hnew => hnew.2.1 rfl, List.append_nil, queues, if_pos hmem]
    have hown : (net.put x s' (Function.update (fun c => net.flight c x) c rest)).flight c x =
        Function.update (fun c => net.flight c x) c rest c := if_pos rfl
    rw [hown, Function.update_self]
  · rw [queues, queues, added]
    by_cases hin : p ∈ ends
    · rw [if_pos hin, if_pos hin]
      change (if p.2 = x then Function.update (fun c => net.flight c x) c rest p.1
        else if Joins net p.1 x p.2 then net.flight p.1 p.2 ++ linesTo p.1 _
        else net.flight p.1 p.2) = _
      by_cases hx : p.2 = x
      · have hne : p.1 ≠ c := fun hc => hp (Prod.ext hc hx)
        rw [if_pos hx, Function.update_of_ne hne, if_neg fun hnew => hnew.2.1 hx,
          List.append_nil, hx]
      · rw [if_neg hx]
        by_cases hjoins : Joins net p.1 x p.2
        · rw [if_pos hjoins, if_pos ⟨hin, hx, hjoins⟩]
        · rw [if_neg hjoins, if_neg fun hnew => hjoins hnew.2.2, List.append_nil]
    · rw [if_neg hin, if_neg hin, if_neg fun hnew => hin hnew.1]
      rfl
  · rw [added] at hnew
    split at hnew
    · exact hlow p.1 new hnew
    · cases hnew

theorem Inv.delivers (h : Inv engine net) (hcovers : Covers ends net)
    (hstep : Delivers engine net net') : (Inv engine net' ∧ Covers ends net') ∧
      Handles rank (queues ends net) (queues ends net') := by
  obtain ⟨c, x, hflight, hnode, hdeliver⟩ := hstep
  obtain ⟨net'', hnet'', hinv⟩ := h.deliver c x
  obtain rfl := Option.some.inj (hnet''.symm.trans hdeliver)
  refine ⟨⟨hinv, hcovers.of_ends (ends_deliver hdeliver)⟩, ?_⟩
  rw [Network.deliver] at hdeliver
  split at hdeliver
  · rename_i line rest clnt hlines hfind
    obtain ⟨s', hs', rfl⟩ := Option.map_eq_some_iff.mp hdeliver
    obtain ⟨y, hj⟩ := h.nodes c x hnode
    have hchannel := h.channels c y x hj
    rw [hlines] at hchannel
    obtain ⟨m, rfl, hsent, -, -⟩ := hchannel.next
    have hmoves : Moves engine (net.state x).readyMessage.toList (answers m.kind) (net.state x)
        s' :=
      (h.agents x).moves_receive hsent (fun _ hmessage => Option.mem_toList.mpr hmessage) hs'
    refine handles_put (hcovers c x y hj) hlines fun c' line hline => ?_
    obtain ⟨ms, hms, hkinds⟩ := hmoves.writes c'
    rw [hms] at hline
    obtain ⟨m', hm', rfl⟩ := List.mem_map.mp hline
    exact rank_answers (hkinds m' hm').1
  · rename_i hnone
    obtain ⟨line, rest, hlines⟩ := List.exists_cons_of_ne_nil hflight
    obtain ⟨clnt, hfind⟩ := Option.isSome_iff_exists.mp hnode
    exact absurd hfind (hnone line rest clnt hlines)

/-- An agent that can take no more lines knows the bindings of the others. -/
theorem Inv.settled (h : Inv engine net) (hend : ∀ net', ¬ Delivers engine net net') {c : Handle}
    {a b : Agent} (hconnected : Connected net c a b)
    (hfilter : (net.state b).filter.messagesClasses = []) :
    Converged engine (net.state a) (net.state b) c := by
  obtain ⟨clnt, hfind, hopen⟩ := hconnected.reads
  have hnode : ((net.state b).findClient c).isSome := Option.isSome_of_eq_some hfind
  have hquiet : net.flight c b = [] := by
    by_contra hflight
    obtain ⟨net', hnet', -⟩ := h.deliver c b
    exact hend net' ⟨c, b, hflight, hnode, hnet'⟩
  have hchannel := h.channels c a b hconnected.joins
  rw [hquiet] at hchannel
  exact converged_of_perm (h.agents b)
    (hchannel.quiet ⟨hconnected.node, hfilter, Or.inr hconnected.reads⟩)

end Settling

/-- Whatever has happened, the deliveries come to an end, in any order, and then the agents know
the bindings of the agents that they are connected to. -/
theorem deliveries_settle (engine : Engine Code) (start : Agent → Ivy Code)
    (hstart : ∀ x, Start (start x)) (es : List (Event Agent))
    (hallowed : Along (next engine) (Allowed engine) (Net.init start) es) :
    ∃ net, run (next engine) (Net.init start) es = some net ∧
      Acc (fun net' net => Delivers engine net net') net ∧
        (∃ net', Relation.ReflTransGen (Delivers engine) net net' ∧
          ∀ net'', ¬ Delivers engine net' net'') ∧
            ∀ net', Relation.ReflTransGen (Delivers engine) net net' →
              (∀ net'', ¬ Delivers engine net' net'') → ∀ c a b, Connected net' c a b →
                (net'.state b).filter.messagesClasses = [] →
                  Converged engine (net'.state a) (net'.state b) c := by
  have hempty : Covers (∅ : Finset (Handle × Agent)) (Net.init start) := by
    rintro c x y (hj | hj)
    · cases hj
    · cases hj
  have hinit : Inv engine (Net.init start) ∧ ∃ ends, Covers ends (Net.init start) :=
    ⟨inv_init hstart, ∅, hempty⟩
  have hstep : ∀ (net : Net Agent Code) (e : Event Agent),
      (Inv engine net ∧ ∃ ends, Covers ends net) → Allowed engine net e →
        ∃ net', next engine net e = some net' ∧ Inv engine net' ∧ ∃ ends, Covers ends net' := by
    intro net e hnet he
    obtain ⟨net', hnet', hinv⟩ := hnet.1.next he
    exact ⟨net', hnet', hinv, Covers.next hnet.2 hnet'⟩
  obtain ⟨net, hrun, hinv, ends, hcovers⟩ := run_defined hstep hinit hallowed
  have hacc : Acc (fun net' net => Delivers engine net net') net :=
    handles_acc (I := fun net => Inv engine net ∧ Covers ends net) (queues ends)
      (fun net p hp => if_neg hp) (fun net net' hnet hstep => hnet.1.delivers hnet.2 hstep)
      ⟨hinv, hcovers⟩
  refine ⟨net, hrun, hacc, exists_end hacc, fun net' hreached hend c a b hconnected hfilter => ?_⟩
  have hgood : Inv engine net' ∧ Covers ends net' := by
    clear hend hconnected hfilter
    induction hreached with
    | refl => exact ⟨hinv, hcovers⟩
    | tail _ hstep ih => exact (ih.1.delivers ih.2 hstep).1
  exact hgood.1.settled hend hconnected hfilter

def connectRun : List (Event Bool) :=
  [.bind false (ascii "a"), .connect false true 1 [] [], .accept 1 [] []]

theorem deliveries_settle_connected : ∃ net,
    run (next literal) (Net.init fun _ => default) connectRun = some net ∧
      (net.flight 1 true).length = 3 ∧ (net.flight 1 false).length = 2 ∧
        Acc (fun net' net => Delivers literal net net') net := by
  have hstart : ∀ x : Bool, Start ((fun _ => default : Bool → Ivy Str) x) := fun _ =>
    ⟨rfl, rfl, rfl, ⟨List.not_mem_nil, List.not_mem_nil⟩, nofun⟩
  have hallowed : Along (next literal) (Allowed literal) (Net.init fun _ => default) connectRun :=
    ⟨⟨⟨by decide, ascii "a", rfl⟩, by decide⟩, fun _ _ => ⟨List.forall_mem_nil _, fun _ _ =>
      ⟨List.forall_mem_nil _, fun _ _ => trivial⟩⟩⟩
  obtain ⟨net, hrun, hacc, -⟩ := deliveries_settle literal (fun _ => default) hstart connectRun
    hallowed
  have hlines : (run (next literal) (Net.init fun _ => default) connectRun).map
      (fun net => ((net.flight 1 true).length, (net.flight 1 false).length)) = some (3, 2) := rfl
  rw [hrun] at hlines
  obtain ⟨htrue, hfalse⟩ := Prod.mk.inj (Option.some.inj hlines)
  exact ⟨net, hrun, htrue, hfalse, hacc⟩

end IvyBus.Network
