import IvyBus.Dictionary
import IvyBus.Lib.Refine
import IvyBus.ReceiveLaws
import IvyBus.SendLaws
import IvyBus.UthashLaws

namespace IvyBus.Dictionary

open Lib Ivy Uthash

variable {Code : Type}

/-- The entries with their addresses, in the order of the iteration. All that is allocated is in
the table. -/
structure Simulates (h : Hashed Code) (s : Ivy Code) (l : List (Elem × MsgSndDict Code)) :
    Prop where
  table : Represents hashJen h.messSndByRegexp (l.map fun p => (p.1, p.2.regexpSrc))
  keys : (l.map fun p => p.2.regexpSrc).Nodup
  entries : ∀ a e, h.entries a = some e ↔ (a, e) ∈ l
  fresh : ∀ p ∈ l, p.1 < h.brk
  ivy_eq : { h.ivy with messSndByRegexp := l.map Prod.snd } = s

def Sim (h : Hashed Code) (s : Ivy Code) : Prop := ∃ l, Simulates h s l

def Spacious (h : Hashed Code) : Prop := h.count + 1 < 2 ^ 32 ∧ Roomy h.messSndByRegexp

instance (h : Hashed Code) : Decidable (Spacious h) := by
  unfold Spacious
  infer_instance

section Simulates

variable {h h' : Hashed Code} {s : Ivy Code} {l u v : List (Elem × MsgSndDict Code)} {a : Elem}
  {e : MsgSndDict Code} {regexp : Str} {client : IvyClient} {engine : Engine Code}

theorem map_fst (l : List (Elem × MsgSndDict Code)) :
    (l.map fun p => (p.1, p.2.regexpSrc)).map Prod.fst = l.map Prod.fst :=
  List.map_map

namespace Simulates

theorem nodup (hs : Simulates h s l) : (l.map Prod.fst).Nodup := map_fst l ▸ hs.table.nodup

theorem count_eq (hs : Simulates h s l) : h.count = l.length :=
  hs.table.count.trans (List.length_map _)

theorem head_eq (hs : Simulates h s l) : h.head = (l.map Prod.fst).head? :=
  map_fst l ▸ hs.table.head_eq

theorem next_eq (hs : Simulates h s (u ++ (a, e) :: v)) :
    h.messSndByRegexp.hh.next a = (v.map Prod.fst).head? := by
  have htable := hs.table
  rw [List.map_append, List.map_cons] at htable
  rw [← map_fst]
  exact htable.next_eq

theorem regexps (hs : Simulates h s l) : ((l.map Prod.snd).map MsgSndDict.regexpSrc).Nodup := by
  rw [List.map_map]
  exact hs.keys

theorem hashFind_eq (hs : Simulates h s l) (regexp : Str) :
    hashFind hashJen h.messSndByRegexp regexp =
      some ((l.find? (·.2.regexpSrc = regexp)).map Prod.fst) := by
  rw [hs.table.find (by rw [List.map_map]; exact hs.keys), List.find?_map, Option.map_map]
  rfl

theorem findEntry_eq (hs : Simulates h s l) (regexp : Str) :
    s.findEntry regexp = (l.find? (·.2.regexpSrc = regexp)).map Prod.snd := by
  rw [← hs.ivy_eq]
  exact List.find?_map ..

theorem put (hs : Simulates h s l) (t : Ivy Code) :
    Simulates (h.put t) { t with messSndByRegexp := l.map Prod.snd } l :=
  ⟨hs.table, hs.keys, hs.entries, hs.fresh, rfl⟩

end Simulates

theorem Sim.put (hs : Sim h s) (f : Ivy Code → Ivy Code)
    (hf : ∀ t d, { f t with messSndByRegexp := d } = f { t with messSndByRegexp := d }) :
    Sim (h.put (f h.ivy)) (f s) := by
  obtain ⟨l, hs⟩ := hs
  have hput := hs.put (f h.ivy)
  rw [hf, hs.ivy_eq] at hput
  exact ⟨l, hput⟩

namespace Simulates

theorem entries_update (hs : Simulates h s (u ++ (a, e) :: v)) {w : List (Elem × MsgSndDict Code)}
    {x : Option (MsgSndDict Code)} (hw : ∀ p, p ∈ w ↔ p.1 = a ∧ x = some p.2) (b : Elem)
    (d : MsgSndDict Code) : Function.update h.entries a x b = some d ↔ (b, d) ∈ u ++ w ++ v := by
  have hnodup := hs.nodup
  rw [List.map_append, List.map_cons] at hnodup
  have hnew := (List.nodup_cons.mp (List.nodup_middle.mp hnodup)).1
  rw [← List.map_append, List.mem_map, not_exists] at hnew
  rw [List.append_assoc, List.mem_append, List.mem_append, or_left_comm, ← List.mem_append, hw]
  by_cases hb : b = a
  · subst hb
    rw [Function.update_self]
    constructor
    · exact fun hx => Or.inl ⟨rfl, hx⟩
    · rintro (hx | hin)
      · exact hx.2
      · exact absurd ⟨hin, rfl⟩ (hnew _)
  · rw [Function.update_of_ne hb, hs.entries, List.perm_middle.mem_iff, List.mem_cons]
    constructor
    · rintro (heq | hin)
      · exact absurd (congrArg Prod.fst heq) hb
      · exact Or.inr hin
    · rintro (hx | hin)
      · exact absurd hx.1 hb
      · exact Or.inr hin

theorem spacious {s' : Ivy Code} {l' : List (Elem × MsgSndDict Code)} (hs : Simulates h s l)
    (hs' : Simulates h' s' l') (hlen : l'.length ≤ l.length)
    (hroomy : Roomy h.messSndByRegexp → Roomy h'.messSndByRegexp) (hroom : Spacious h) :
    Spacious h' := by
  refine ⟨?_, hroomy hroom.2⟩
  have hcount := hroom.1
  rw [hs.count_eq] at hcount
  rw [hs'.count_eq]
  exact (Nat.succ_le_succ hlen).trans_lt hcount

theorem freeEntry (hs : Simulates h s (u ++ (a, e) :: v)) :
    ∃ h', h.putEntry a e [] = some h' ∧
      Simulates h' (s.putEntry e.regexpSrc []) (u ++ v) ∧ (Spacious h → Spacious h') := by
  have hregexps := hs.regexps
  have hivy := hs.ivy_eq
  rw [List.map_append, List.map_cons] at hregexps hivy
  have hsub : ∀ p ∈ u ++ v, p ∈ u ++ (a, e) :: v := fun p hp =>
    List.perm_middle.mem_iff.mpr (List.mem_cons_of_mem _ hp)
  obtain ⟨t, hdel, htable⟩ := hs.table.delete (a := a) (by simp)
  have hnodup := hs.table.nodup
  rw [List.map_append, List.map_cons] at hnodup htable
  rw [show (fun p : Elem × Str => decide (p.1 ≠ a)) =
    fun p => decide (p.1 ≠ (a, e.regexpSrc).1) from rfl, filter_cell hnodup,
    ← List.map_append] at htable
  have hentries := hs.entries_update (w := []) (x := none) (by simp)
  rw [List.append_nil] at hentries
  have hs' : Simulates { h with messSndByRegexp := t, entries := Function.update h.entries a none }
      (s.putEntry e.regexpSrc []) (u ++ v) := by
    refine ⟨htable, hs.keys.sublist ?_, hentries, fun p hp => hs.fresh p (hsub p hp), ?_⟩
    · exact (((List.sublist_cons_self _ v).append_left u).map _)
    · rw [← hivy, Ivy.putEntry, if_pos rfl]
      dsimp only
      rw [filter_cell hregexps, List.map_append]
  refine ⟨_, ?_, hs', hs.spacious hs' (by simp) fun hroomy => roomy_delete hroomy hdel⟩
  rw [Hashed.putEntry, if_pos rfl, hdel]
  rfl

theorem setClients (hs : Simulates h s (u ++ (a, e) :: v))
    (f : List IvyClient → List IvyClient) :
    Simulates { h with
        entries := Function.update h.entries a (some { e with clientList := f e.clientList }) }
      { s with messSndByRegexp := s.messSndByRegexp.map fun d =>
          if d.regexpSrc = e.regexpSrc then { d with clientList := f d.clientList } else d }
      (u ++ [(a, { e with clientList := f e.clientList })] ++ v) := by
  have hregexps := hs.regexps
  have hivy := hs.ivy_eq
  have htable := hs.table
  have hkeys := hs.keys
  rw [List.map_append, List.map_cons] at hregexps hivy htable hkeys
  refine ⟨?_, ?_, hs.entries_update (by simp [eq_comm]), ?_, ?_⟩
  · simpa using htable
  · simpa using hkeys
  · rw [List.append_assoc]
    exact List.forall_mem_append.mpr ⟨fun p hp => hs.fresh p (List.mem_append_left _ hp),
      List.forall_mem_cons.mpr ⟨hs.fresh (a, e) (by simp), fun p hp =>
        hs.fresh p (List.mem_append_right _ (List.mem_cons_of_mem _ hp))⟩⟩
  · rw [← hivy]
    dsimp only
    rw [update_cell hregexps fun d => { d with clientList := f d.clientList }]
    simp

theorem putEntry (hs : Simulates h s (u ++ (a, e) :: v)) (clientList : List IvyClient) :
    ∃ h' w, h.putEntry a e clientList = some h' ∧
      Simulates h' (s.putEntry e.regexpSrc clientList) (u ++ w ++ v) ∧
        (Spacious h → Spacious h') := by
  by_cases hnil : clientList = []
  · subst hnil
    obtain ⟨h', hput, hs', hroom⟩ := hs.freeEntry
    refine ⟨h', [], hput, ?_, hroom⟩
    rw [List.append_nil]
    exact hs'
  · rw [Hashed.putEntry, Ivy.putEntry, if_neg hnil, if_neg hnil]
    have hs' := hs.setClients fun _ => clientList
    exact ⟨_, _, rfl, hs', hs.spacious hs' (by simp) id⟩

theorem exists_entry (hs : Simulates h s l) (hfind : s.findEntry regexp = some e) :
    ∃ a u v, l = u ++ (a, e) :: v ∧ e.regexpSrc = regexp ∧ h.entries a = some e ∧
      hashFind hashJen h.messSndByRegexp regexp = some (some a) := by
  rw [hs.findEntry_eq] at hfind
  obtain ⟨⟨a, e⟩, hp, rfl⟩ := Option.map_eq_some_iff.mp hfind
  have hin := List.mem_of_find?_eq_some hp
  have hkey : e.regexpSrc = regexp := by simpa using List.find?_some hp
  obtain ⟨u, v, rfl⟩ := List.append_of_mem hin
  refine ⟨a, u, v, rfl, hkey, (hs.entries a e).mpr hin, ?_⟩
  rw [hs.hashFind_eq, hp]
  rfl

theorem no_entry (hs : Simulates h s l) (hfind : s.findEntry regexp = none) :
    hashFind hashJen h.messSndByRegexp regexp = some none := by
  rw [hs.findEntry_eq, Option.map_eq_none_iff] at hfind
  rw [hs.hashFind_eq, hfind]
  rfl

end Simulates

def Shrinks (h : Hashed Code) (h' : Hashed Code) (s' : Ivy Code) : Prop :=
  Sim h' s' ∧ (Spacious h → Spacious h')

theorem Simulates.delOneClientFromDictionaryEntry (hs : Simulates h s (u ++ (a, e) :: v))
    (c : Handle) :
    Option.Rel (fun h' s' => ∃ w, Simulates h' s' (u ++ w ++ v))
      (h.delOneClientFromDictionaryEntry a c) (s.delOneClientFromDictionaryEntry e c) := by
  rw [Hashed.delOneClientFromDictionaryEntry, Ivy.delOneClientFromDictionaryEntry,
    (hs.entries a e).mpr (by simp), Option.bind_some, Option.map_eq_bind]
  refine rel_bind_self fun clientList _ => ?_
  obtain ⟨h', w, hput, hs', -⟩ := hs.putEntry clientList
  exact rel_of_eq_some hput rfl ⟨w, hs'⟩

theorem Simulates.delOneIvyClientFromDictionaryEntry (hs : Simulates h s (u ++ (a, e) :: v))
    (client : IvyClient) :
    Option.Rel (Shrinks h) (h.delOneIvyClientFromDictionaryEntry a client)
      (s.delOneIvyClientFromDictionaryEntry e client) := by
  rw [Hashed.delOneIvyClientFromDictionaryEntry, Ivy.delOneIvyClientFromDictionaryEntry,
    (hs.entries a e).mpr (by simp), Option.bind_some, Option.map_eq_bind]
  refine rel_bind_self fun clientList _ => ?_
  obtain ⟨h', w, hput, hs', hroom⟩ := hs.putEntry clientList
  exact rel_of_eq_some hput rfl ⟨⟨_, hs'⟩, hroom⟩

theorem Sim.delRegexpForOneClientFromDictionary (hs : Sim h s) (regexp : Str)
    (client : IvyClient) :
    Option.Rel (Shrinks h) (h.delRegexpForOneClientFromDictionary regexp client)
      (s.delRegexpForOneClientFromDictionary regexp client) := by
  obtain ⟨l, hs⟩ := hs
  rw [Hashed.delRegexpForOneClientFromDictionary, Ivy.delRegexpForOneClientFromDictionary]
  cases hfind : s.findEntry regexp with
  | none =>
    rw [hs.no_entry hfind]
    exact .some ⟨⟨l, hs⟩, id⟩
  | some e =>
    obtain ⟨a, u, v, rfl, -, -, hhash⟩ := hs.exists_entry hfind
    rw [hhash]
    exact hs.delOneIvyClientFromDictionaryEntry client

theorem Simulates.subscribe (hs : Simulates h s (u ++ (a, e) :: v)) (client : IvyClient) :
    ∃ h', h.subscribe a client = some h' ∧ Sim h' (s.subscribe e.regexpSrc client) := by
  obtain rfl := hs.ivy_eq
  have hs' := hs.setClients fun clientList => { client with
    addr := h.ivy.brk, srcRegList := [], readyToSend := 0, ignoreSubsequentMsg := false } ::
      clientList
  rw [Hashed.subscribe, (hs.entries a e).mpr (by simp)]
  exact ⟨_, rfl, Sim.put ⟨_, hs'⟩ (fun t => { t with brk := t.brk + 1 }) fun _ _ => rfl⟩

theorem regexpSrc_compileEntry {p : Ivy Code × MsgSndDict Code}
    (hp : Hashed.compileEntry engine s regexp client = some p) : p.2.regexpSrc = regexp := by
  rw [Hashed.compileEntry] at hp
  split at hp
  · exact Option.some.inj hp ▸ rfl
  · dsimp only at hp
    split at hp
    · exact Option.some.inj hp ▸ rfl
    · cases hp

theorem addEntry_eq (engine : Engine Code) (s : Ivy Code) (regexp : Str) (client : IvyClient)
    (d : List (MsgSndDict Code)) :
    Ivy.addEntry engine { s with messSndByRegexp := d } regexp client =
      (Hashed.compileEntry engine s regexp client).map fun p =>
        { p.1 with messSndByRegexp := d ++ [p.2] } := by
  rw [Ivy.addEntry, Hashed.compileEntry]
  cases ivyBindingCompile engine regexp with
  | ok binding => rfl
  | error e =>
    dsimp only
    split <;> rfl

theorem Simulates.addEntry (hs : Simulates h s l) (hnew : s.findEntry regexp = none)
    (hlen : regexp.length < 2 ^ 32) (hroom : Spacious h) (engine : Engine Code)
    (client : IvyClient) :
    Option.Rel (fun h' s' => ∃ e, e.regexpSrc = regexp ∧ Simulates h' s' (l ++ [(h.brk, e)]))
      (h.addEntry engine regexp client) (Ivy.addEntry engine s regexp client) := by
  have hbrk : h.brk ∉ l.map Prod.fst := fun hin => by
    obtain ⟨p, hp, heq⟩ := List.mem_map.mp hin
    exact Nat.lt_irrefl _ (heq ▸ hs.fresh p hp)
  obtain ⟨hsize, hroomy⟩ := hroom
  rw [hs.count_eq, ← List.length_map] at hsize
  obtain ⟨t, hadd, htable⟩ := hs.table.add (map_fst l ▸ hbrk) hlen hsize hroomy
  rw [hs.findEntry_eq, Option.map_eq_none_iff, List.find?_eq_none] at hnew
  rw [Hashed.addEntry, hadd, ← hs.ivy_eq, addEntry_eq, Option.map_eq_bind]
  refine rel_bind_self fun p hp => .some ?_
  have hregexp := regexpSrc_compileEntry hp
  refine ⟨p.2, hregexp, ?_, ?_, fun b d => ?_, ?_, ?_⟩
  · rw [List.map_append, List.map_cons, hregexp]
    exact htable
  · rw [List.map_append, List.map_cons, hregexp]
    refine List.nodup_append.mpr ⟨hs.keys, List.nodup_singleton _, fun x hx y hy => ?_⟩
    obtain ⟨p, hp, rfl⟩ := List.mem_map.mp hx
    rw [List.mem_singleton.mp hy]
    simpa using hnew p hp
  · change Function.update h.entries h.brk (some p.2) b = some d ↔ _
    rw [List.mem_append, List.mem_singleton, ← hs.entries]
    by_cases hb : b = h.brk
    · subst hb
      have hfree : h.entries h.brk ≠ some d := fun hd =>
        hbrk (List.mem_map_of_mem ((hs.entries _ _).mp hd))
      rw [Function.update_self, or_iff_right hfree, Prod.mk.injEq, Option.some.injEq, eq_comm,
        and_iff_right rfl]
    · have hne : (b, d) ≠ (h.brk, p.2) := fun heq => hb (congrArg Prod.fst heq)
      rw [Function.update_of_ne hb, or_iff_left hne]
  · exact List.forall_mem_append.mpr ⟨fun p hp => Nat.lt_succ_of_lt (hs.fresh p hp),
      List.forall_mem_singleton.mpr (Nat.lt_succ_self _)⟩
  · rw [List.map_append]
    rfl

theorem Sim.addRegexpToDictionary (hs : Sim h s) (hlen : regexp.length < 2 ^ 32)
    (hroom : Spacious h) (engine : Engine Code) (client : IvyClient) :
    Option.Rel Sim (h.addRegexpToDictionary engine regexp client)
      (Ivy.addRegexpToDictionary engine s regexp client) := by
  obtain ⟨l, hs⟩ := hs
  rw [Hashed.addRegexpToDictionary, Ivy.addRegexpToDictionary]
  cases hfind : s.findEntry regexp with
  | none =>
    rw [hs.no_entry hfind, Option.bind_some]
    dsimp only
    rw [Option.map_eq_bind]
    refine rel_bind (hs.addEntry hfind hlen hroom engine client) fun h' s' hs' => ?_
    obtain ⟨e, rfl, hs'⟩ := hs'
    obtain ⟨h'', hsub, hs''⟩ := hs'.subscribe client
    exact rel_of_eq_some hsub rfl hs''
  | some e =>
    obtain ⟨a, u, v, rfl, rfl, -, hhash⟩ := hs.exists_entry hfind
    rw [hhash, Option.bind_some]
    obtain ⟨h', hsub, hs'⟩ := hs.subscribe client
    exact rel_of_eq_some hsub rfl hs'

theorem Sim.changeRegexpInDictionary (hs : Sim h s) (hlen : regexp.length < 2 ^ 32)
    (hroom : Spacious h) (client : IvyClient) :
    Option.Rel Sim (h.changeRegexpInDictionary engine regexp client)
      (Ivy.changeRegexpInDictionary engine s regexp client) := by
  refine rel_bind (hs.delRegexpForOneClientFromDictionary regexp client) fun h' s' hs' => ?_
  exact hs'.1.addRegexpToDictionary hlen (hs'.2 hroom) engine client

section Frame

theorem Sim.findClient_eq (hs : Sim h s) (c : Handle) : h.ivy.findClient c = s.findClient c := by
  obtain ⟨l, hs⟩ := hs
  rw [← hs.ivy_eq]
  rfl

theorem Sim.srcRegs_eq (hs : Sim h s) (c : Handle) : h.ivy.srcRegs c = s.srcRegs c := by
  obtain ⟨l, hs⟩ := hs
  rw [← hs.ivy_eq]
  rfl

theorem Sim.readyMessage_eq (hs : Sim h s) : h.ivy.readyMessage = s.readyMessage := by
  obtain ⟨l, hs⟩ := hs
  rw [← hs.ivy_eq]

theorem Sim.filter_eq (hs : Sim h s) : h.ivy.filter = s.filter := by
  obtain ⟨l, hs⟩ := hs
  rw [← hs.ivy_eq]

theorem Sim.checkConnected_eq (hs : Sim h s) (c : Handle) :
    h.ivy.checkConnected c = s.checkConnected c := by
  obtain ⟨l, hs⟩ := hs
  rw [← hs.ivy_eq]
  rfl

theorem Sim.allClients_eq (hs : Sim h s) : h.ivy.allClients = s.allClients := by
  obtain ⟨l, hs⟩ := hs
  rw [← hs.ivy_eq]

end Frame

theorem Sim.delRegexpForOneClient (hs : Sim h s) (client : IvyClient) (id : Int32) :
    Option.Rel (fun p q => Sim p.1 q.1 ∧ p.2 = q.2) (h.delRegexpForOneClient client id)
      (s.delRegexpForOneClient client id) := by
  rw [Hashed.delRegexpForOneClient, Ivy.delRegexpForOneClient, hs.findClient_eq]
  cases s.findClient client.client with
  | none => exact .some ⟨hs, rfl⟩
  | some itr =>
    refine rel_forEachSafe (fun p q hp => hp.1.srcRegs_eq _) (fun g p q hp => ?_) ⟨hs, rfl⟩
    split
    · refine rel_map (hp.1.delRegexpForOneClientFromDictionary g.strRegexp client)
        fun h' s' hs' => ⟨hs'.1.put (fun t => t.modifyClient client.client fun clientItr =>
          { clientItr with srcRegList := unlink GlobReg.addr g.addr clientItr.srcRegList })
            fun _ _ => rfl, rfl⟩
    · exact .some hp

theorem Sim.addRegexp (hs : Sim h s) (hlen : regexp.length < 2 ^ 32) (hroom : Spacious h)
    (engine : Engine Code) (client : IvyClient) :
    Option.Rel Sim (h.addRegexp engine regexp client) (Ivy.addRegexp engine s regexp client) := by
  refine rel_bind (hs.addRegexpToDictionary hlen hroom engine client) fun h' s' hs' => ?_
  rw [hs'.findClient_eq]
  cases s'.findClient client.client with
  | none => exact .none
  | some itr =>
    exact .some (hs'.put (fun t => ({ t with brk := t.brk + 1 }.modifyClient client.client
      fun clientItr => { clientItr with
        srcRegList := ⟨t.brk, regexp, client.id⟩ :: clientItr.srcRegList }).bindCallback
          client.client client.id regexp .addBind) fun _ _ => rfl)

theorem Sim.changeGlobal (hs : Sim h s) (regexp : Str) (client : IvyClient) :
    Option.Rel (fun t s' => Sim (h.put t) s') (h.ivy.changeGlobal regexp client)
      (s.changeGlobal regexp client) := by
  rw [Ivy.changeGlobal, Ivy.changeGlobal, hs.findClient_eq]
  cases s.findClient client.client with
  | none => exact .some hs
  | some itr =>
    dsimp only
    rw [Option.map_eq_bind, Option.map_eq_bind]
    refine rel_bind_self fun srcRegList _ => .some ?_
    exact hs.put (fun t => t.modifyClient client.client fun clientItr =>
      { clientItr with srcRegList := srcRegList }) fun _ _ => rfl

theorem Sim.changeRegexp (hs : Sim h s) (hlen : regexp.length < 2 ^ 32) (hroom : Spacious h)
    (client : IvyClient) :
    Option.Rel Sim (h.changeRegexp engine regexp client)
      (Ivy.changeRegexp engine s regexp client) := by
  rw [Hashed.changeRegexp, Ivy.changeRegexp, Option.map_bind]
  refine rel_bind (hs.changeRegexpInDictionary hlen hroom client) fun h' s' hs' => ?_
  refine rel_map (hs'.changeGlobal regexp client) fun t s'' hs'' => ?_
  exact hs''.put (fun t => t.bindCallback client.client client.id regexp .changeBind)
    fun _ _ => rfl

theorem Sim.addOrChangeRegexp (hs : Sim h s) (hlen : regexp.length < 2 ^ 32) (hroom : Spacious h)
    (client : IvyClient) :
    Option.Rel Sim (h.addOrChangeRegexp engine regexp client)
      (Ivy.addOrChangeRegexp engine s regexp client) := by
  have hadd := hs.addRegexp hlen hroom engine client
  rw [Hashed.addOrChangeRegexp, Ivy.addOrChangeRegexp]
  obtain ⟨l, hl⟩ := hs
  cases hfind : s.findEntry regexp with
  | none =>
    rw [hl.no_entry hfind]
    exact hadd
  | some e =>
    obtain ⟨a, u, v, -, -, hentry, hhash⟩ := hl.exists_entry hfind
    rw [hhash, Option.bind_some]
    dsimp only
    rw [hentry, Option.bind_some]
    cases e.clientList.find? (·.client = client.client) with
    | none => exact hadd
    | some clientItr =>
      dsimp only
      split
      · exact Sim.changeRegexp ⟨l, hl⟩ hlen hroom client
      · exact hadd

theorem Sim.delSrcRegs (hs : Sim h s) (clientItr : IvyClient) :
    Option.Rel Sim (h.delSrcRegs clientItr) (s.delSrcRegs clientItr) := by
  refine rel_forEachSafe (fun h s hs => hs.srcRegs_eq _) (fun g h s hs => ?_) hs
  exact rel_map (hs.delRegexpForOneClient clientItr g.id) fun p q hp => hp.1

theorem Sim.delClientNode (hs : Sim h s) (c : Handle) (clientItr : IvyClient) :
    Option.Rel Sim (Hashed.delClientNode c clientItr h) (Ivy.delClientNode c clientItr s) := by
  rw [Hashed.delClientNode, Ivy.delClientNode]
  split
  · refine rel_map (hs.delSrcRegs clientItr) fun h s hs => ?_
    exact hs.put (fun t => { t with allClients := unlink IvyClient.client c t.allClients })
      fun _ _ => rfl
  · exact .some hs

theorem Simulates.delEntries (hs : Simulates h s (u ++ v)) (c : Handle) {n fuel : Nat}
    (hn : v.length ≤ n) (hfuel : v.length < fuel) :
    Option.Rel Sim (Hashed.delEntries c n (v.map Prod.fst).head? h)
      (eachSafe MsgSndDict.regexpSrc messSndByRegexp
        (fun msgSendDict s => s.delOneClientFromDictionaryEntry msgSendDict c) fuel
        ((v.map Prod.snd).head?.map MsgSndDict.regexpSrc) s) := by
  induction v generalizing h s u n fuel with
  | nil =>
    cases fuel with
    | zero => cases hfuel
    | succ fuel =>
      rw [List.map_nil, List.head?_nil, Hashed.delEntries]
      exact .some ⟨_, hs⟩
  | cons p v ih =>
    obtain ⟨a, e⟩ := p
    cases n with
    | zero => cases hn
    | succ n =>
      cases fuel with
      | zero => cases hfuel
      | succ fuel =>
        have hchain : s.messSndByRegexp = u.map Prod.snd ++ e :: v.map Prod.snd := by
          rw [← hs.ivy_eq, List.map_append, List.map_cons]
        have hregexps := hs.regexps
        rw [List.map_append, List.map_cons, List.map_append, List.map_cons] at hregexps
        have hnew := (List.nodup_append.mp hregexps).2.2
        rw [List.map_cons, List.map_cons, List.head?_cons, List.head?_cons, Option.map_some,
          Hashed.delEntries, (hs.entries a e).mpr (by simp), Option.bind_some, hs.next_eq,
          eachSafe_cons hchain fun hin => hnew _ hin _ List.mem_cons_self rfl]
        refine rel_bind (hs.delOneClientFromDictionaryEntry c) fun h' s' ⟨w, hs'⟩ => ?_
        exact ih hs' (Nat.le_of_succ_le_succ hn) (Nat.lt_of_succ_lt_succ hfuel)

theorem Sim.delOneClient (hs : Sim h s) (c : Handle) :
    Option.Rel Sim (h.delOneClient c) (s.delOneClient c) := by
  rw [Hashed.delOneClient, Ivy.delOneClient]
  refine rel_bind (rel_forEachSafe (fun h s hs => hs.allClients_eq)
    (fun itr h s hs => hs.delClientNode c itr) hs) fun h s hsim => ?_
  obtain ⟨l, hs⟩ := hsim
  have hlist : s.messSndByRegexp = l.map Prod.snd := by rw [← hs.ivy_eq]
  rw [hs.head_eq, forEachSafe, hlist]
  exact Simulates.delEntries (u := []) hs c hs.count_eq.ge
    (by rw [List.length_map]; exact Nat.lt_succ_self _)

theorem Simulates.callEntries (hs : Simulates h s (u ++ v))
    (call : Ivy Code → MsgSndDict Code → Ivy Code × Nat) {n : Nat} (hn : v.length ≤ n)
    (out : Ivy Code × Nat) :
    h.callEntries call n (v.map Prod.fst).head? out = some ((v.map Prod.snd).foldl
      (fun out msgSendDict =>
        let call' := call out.1 msgSendDict
        (call'.1, out.2 + call'.2)) out) := by
  induction v generalizing u n out with
  | nil =>
    rw [List.map_nil, List.head?_nil, Hashed.callEntries]
    rfl
  | cons p v ih =>
    obtain ⟨a, e⟩ := p
    cases n with
    | zero => cases hn
    | succ n =>
      have hrest : Simulates h s ((u ++ [(a, e)]) ++ v) := by
        rw [List.append_assoc]
        exact hs
      rw [List.map_cons, List.head?_cons, Hashed.callEntries, (hs.entries a e).mpr (by simp),
        Option.bind_some, hs.next_eq, ih hrest (Nat.le_of_succ_le_succ hn)]
      rfl

theorem Sim.callEntries (hs : Sim h s) {call : Ivy Code → MsgSndDict Code → Ivy Code × Nat}
    {lines : MsgSndDict Code → List Output}
    (hcall : ∀ s msg, call s msg = (s.extend (lines msg), (lines msg).length)) :
    h.callEntries call h.count h.head (h.ivy, 0) =
      some (h.ivy.extend (s.messSndByRegexp.flatMap lines),
        (s.messSndByRegexp.flatMap lines).length) := by
  obtain ⟨l, hs⟩ := hs
  have hlist : s.messSndByRegexp = l.map Prod.snd := by rw [← hs.ivy_eq]
  have hfold := foldl_call hcall (l.map Prod.snd) h.ivy 0
  rw [Nat.zero_add] at hfold
  rw [hs.head_eq, hlist, ← hfold]
  exact Simulates.callEntries (u := []) hs call hs.count_eq.ge _

theorem Sim.extend (hs : Sim h s) (os : List Output) :
    Sim (h.put (h.ivy.extend os)) (s.extend os) :=
  hs.put (fun t => t.extend os) fun _ _ => rfl

theorem Sim.clientCall (hs : Sim h s) (c : Handle) (message : Str) :
    Option.Rel Sim ((h.clientCall engine c message).map Prod.fst)
      (some (Ivy.clientCall engine s c message).1) := by
  rw [Hashed.clientCall, hs.callEntries fun s msg => regexpCallUnique_eq engine s message c msg,
    clientCall_eq]
  exact .some (hs.extend _)

theorem Sim.ivySendMsg (hs : Sim h s) (buffer : Str) :
    Option.Rel Sim ((h.ivySendMsg engine buffer).map Prod.fst)
      (some (Ivy.ivySendMsg engine s buffer).1) := by
  have hdebug : h.ivy.debugBinaryMsg = s.debugBinaryMsg := by
    obtain ⟨l, hs⟩ := hs
    rw [← hs.ivy_eq]
  rw [Hashed.ivySendMsg, hdebug]
  cases hrefused : s.debugBinaryMsg && ivyCheckBuffer buffer with
  | true =>
    rw [Ivy.ivySendMsg, hrefused]
    exact .some hs
  | false =>
    rw [if_neg Bool.false_ne_true, ivySendMsg_eq engine hrefused,
      hs.callEntries fun s msg => regexpCall_eq engine s msg buffer]
    exact .some (hs.extend _)

theorem Sim.announceReady (hs : Sim h s) (c : Handle) :
    Option.Rel Sim (h.announceReady engine c) (some (Ivy.announceReady engine s c)) := by
  have hs' := hs.put (fun t => t.modifyClient c fun clnt =>
    { clnt with readyToSend := clnt.readyToSend + 1 }) fun _ _ => rfl
  have hready : (h.ivy.modifyClient c fun clnt =>
      { clnt with readyToSend := clnt.readyToSend + 1 }).readyMessage = _ := hs'.readyMessage_eq
  have hfind : (h.ivy.modifyClient c fun clnt =>
      { clnt with readyToSend := clnt.readyToSend + 1 }).findClient c = _ := hs'.findClient_eq c
  rw [Hashed.announceReady, Ivy.announceReady, hready, hfind]
  generalize (s.modifyClient c _).readyMessage = message
  generalize (s.modifyClient c _).findClient c = clnt
  cases message with
  | none => exact .some hs'
  | some message =>
    cases clnt with
    | none => exact .some hs'
    | some clnt =>
      dsimp only
      split
      · exact hs'.clientCall c message
      · exact .some hs'

theorem length_arg {line : Str} {hd : Header} (hparse : parseHeader line = some hd) :
    hd.arg.length ≤ line.length := by
  rw [parseHeader] at hparse
  split at hparse
  · rename_i p arg hp harg
    rw [← Option.some.inj hparse]
    rw [strstr] at harg
    split at harg
    · cases harg
    · rw [← Option.some.inj harg]
      exact ((List.drop_sublist ..).trans (List.dropWhile_sublist _)).length_le
  · cases hparse

theorem Sim.receiveAddRegexp (hs : Sim h s) (hlen : regexp.length < 2 ^ 32) (hroom : Spacious h)
    (engine : Engine Code) (clnt : IvyClient) :
    Option.Rel Sim (h.receiveAddRegexp engine clnt regexp)
      (Ivy.receiveAddRegexp engine s clnt regexp) := by
  rw [Hashed.receiveAddRegexp, Ivy.receiveAddRegexp, hs.filter_eq]
  split
  · exact hs.addOrChangeRegexp hlen hroom clnt
  · exact .some (hs.put (fun t => t.bindCallback clnt.client clnt.id regexp .filterBind)
      fun _ _ => rfl)

theorem Sim.receiveDelRegexp (hs : Sim h s) (clnt : IvyClient) (arg : Str) :
    Option.Rel Sim (h.receiveDelRegexp clnt arg) (s.receiveDelRegexp clnt arg) := by
  refine rel_map (hs.delRegexpForOneClient clnt clnt.id) fun p q ⟨hp, hflag⟩ => ?_
  rw [hflag]
  split
  · exact hp.put (fun t => t.bindCallback clnt.client clnt.id arg .removeBind) fun _ _ => rfl
  · exact hp

theorem receiveStartRegexp_put (clnt : IvyClient) (arg : Str) (t : Ivy Code)
    (d : List (MsgSndDict Code)) :
    { t.receiveStartRegexp clnt arg with messSndByRegexp := d } =
      { t with messSndByRegexp := d }.receiveStartRegexp clnt arg := by
  have hother : ∀ (f : IvyClient → IvyClient),
      ({ t with messSndByRegexp := d }.modifyClient clnt.client f).checkConnected clnt.client =
        (t.modifyClient clnt.client f).checkConnected clnt.client := fun _ => rfl
  rw [receiveStartRegexp, receiveStartRegexp]
  dsimp only
  rw [hother]
  cases (t.modifyClient clnt.client _).checkConnected clnt.client <;> rfl

theorem Sim.receive (hs : Sim h s) {line : Str} (hlen : line.length < 2 ^ 32) (hroom : Spacious h)
    (engine : Engine Code) (c : Handle) :
    Option.Rel Sim (h.receive engine c line) (Ivy.receive engine s c line) := by
  rw [Hashed.receive, Ivy.receive, hs.findClient_eq]
  cases s.findClient c with
  | none => exact .none
  | some clnt =>
    dsimp only
    split
    · exact .some hs
    · cases hparse : parseHeader line with
      | none =>
        exact .some (hs.put (fun t => (((t.msgSendTo c .error 3 badFormat).msgSendTo c .bye 0
          []).socketClose c)) fun _ _ => rfl)
      | some hd =>
        have hid := hs.put (fun t => t.modifyClient c fun clnt => { clnt with id := hd.id })
          fun _ _ => rfl
        have harg := (length_arg hparse).trans_lt hlen
        dsimp only
        cases MsgType.ofInt32 hd.kindOfMsg with
        | none => exact .some hid
        | some kind =>
          cases kind with
          | bye => exact .some (hid.put (fun t => t.socketClose c) fun _ _ => rfl)
          | addRegexp => exact hid.receiveAddRegexp harg hroom engine _
          | delRegexp => exact hid.receiveDelRegexp _ _
          | startRegexp =>
            exact .some (hid.put (fun t => t.receiveStartRegexp _ _) (receiveStartRegexp_put _ _))
          | endRegexp =>
            exact (hid.put (fun t => t.emit (.connected c)) fun _ _ => rfl).announceReady c
          | ping => exact .some (hid.put (fun t => t.msgSendTo c .pong hd.id []) fun _ _ => rfl)
          | _ => exact .some hid

theorem Sim.sendService (hs : Sim h s) (engine : Engine Code) (c : Handle) (appname : Str) :
    Option.Rel Sim (h.sendService engine c appname)
      (some (Ivy.sendService engine s c appname)) := by
  rw [Hashed.sendService, Ivy.sendService, foldl_msgSendTo, foldl_msgSendTo]
  refine Sim.announceReady ?_ c
  exact hs.put (fun t => { t with
    brk := t.brk + 1
    allClients := ⟨t.brk, c, appname, 0, 0, [], 0, false⟩ :: t.allClients
    outputs := ((t.outputs ++ [.send c (msgText .startRegexp
      (Int32.ofNat t.applicationPort.toNat) t.applicationName)]) ++
        t.msgRecv.map fun msg => .send c (msgText .addRegexp msg.id msg.regexp)) ++
          [.send c (msgText .endRegexp 0 [])] }) fun _ _ => rfl

theorem Sim.clientCreate (hs : Sim h s) (engine : Engine Code) (c : Handle) (appname : Str) :
    Option.Rel Sim (h.clientCreate engine c appname)
      (some (Ivy.clientCreate engine s c appname)) := by
  rw [Hashed.clientCreate, Ivy.clientCreate, hs.checkConnected_eq]
  cases s.checkConnected c with
  | none => exact hs.sendService engine c appname
  | some other => exact .some (hs.put (fun t => t.socketClose c) fun _ _ => rfl)

end Simulates

/-- A line is shorter than 2^32, and the table has room for one more entry. -/
def Room (h : Hashed Code) : Event → Prop
  | .line _ line => line.length < 2 ^ 32 ∧ Spacious h
  | _ => True

instance (h : Hashed Code) (e : Event) : Decidable (Room h e) := by
  cases e <;> unfold Room <;> infer_instance

section Run

variable {h : Hashed Code} {s : Ivy Code} {engine : Engine Code}

theorem Sim.put_open (hs : Sim h s) (c : Handle) (info : SocketInfo) :
    Sim (h.put («open» h.ivy c info)) («open» s c info) :=
  hs.put (fun t => «open» t c info) fun _ _ => rfl

theorem Sim.next (hs : Sim h s) {e : Event} (hroom : Room h e) :
    Option.Rel Sim (next engine h e) (nextOfList engine s e) := by
  cases e with
  | connect c info appname =>
    rw [Dictionary.next, nextOfList, hs.findClient_eq]
    split
    · exact .some hs
    · exact (hs.put_open c info).sendService engine c appname
  | accept c info appname =>
    rw [Dictionary.next, nextOfList, hs.findClient_eq]
    split
    · exact .some hs
    · exact (hs.put_open c info).clientCreate engine c appname
  | line c line =>
    rw [Dictionary.next, nextOfList, hs.findClient_eq]
    split
    · exact hs.receive hroom.1 hroom.2 engine c
    · exact .some hs
  | disconnect c => exact hs.delOneClient c
  | send buffer => exact hs.ivySendMsg buffer

theorem Simulates.elements_eq {l : List (Elem × MsgSndDict Code)} (hs : Simulates h s l) :
    h.messSndByRegexp.elements = some (l.map Prod.fst) :=
  map_fst l ▸ hs.table.elements

theorem Sim.view_eq (hs : Sim h s) : h.view = s := by
  obtain ⟨l, hs⟩ := hs
  have hlist : (l.map Prod.fst).filterMap h.entries = l.map Prod.snd := by
    rw [List.filterMap_map, ← List.filterMap_eq_map]
    exact List.filterMap_congr fun p hp => (hs.entries p.1 p.2).mpr hp
  rw [Hashed.view, hs.elements_eq, Option.getD_some, hlist]
  exact hs.ivy_eq

theorem Sim.allocated_iff (hs : Sim h s) (a : Elem) :
    (h.entries a).isSome ↔ a ∈ h.messSndByRegexp.elements.getD [] := by
  obtain ⟨l, hs⟩ := hs
  rw [hs.elements_eq, Option.getD_some, Option.isSome_iff_exists, List.mem_map]
  constructor
  · exact fun ⟨e, he⟩ => ⟨(a, e), (hs.entries a e).mp he, rfl⟩
  · rintro ⟨p, hp, rfl⟩
    exact ⟨p.2, (hs.entries p.1 p.2).mpr hp⟩

theorem sim_unconnected (s : Ivy Code) : Sim (unconnected s) (unconnected s).ivy :=
  ⟨[], rfl, List.nodup_nil, by simp [unconnected], by simp, rfl⟩

theorem delAllEntries_spec {l : List (Elem × MsgSndDict Code)} {n : Nat}
    (htable : Represents hashJen h.messSndByRegexp (l.map fun p => (p.1, p.2.regexpSrc)))
    (hentries : ∀ p ∈ l, (h.entries p.1).isSome) (hn : l.length ≤ n) :
    ∃ h', Hashed.delAllEntries n (l.map Prod.fst).head? h = some h' ∧
      h'.messSndByRegexp.head = none ∧ ∀ a, (h'.entries a).isSome = (h.entries a).isSome := by
  induction l generalizing h n with
  | nil =>
    refine ⟨h, by rw [List.map_nil, List.head?_nil, Hashed.delAllEntries], ?_, fun a => rfl⟩
    have hhead := htable.head_eq
    rwa [List.map_nil, List.map_nil, List.head?_nil, Option.map_eq_none_iff] at hhead
  | cons p l ih =>
    obtain ⟨a, e⟩ := p
    cases n with
    | zero => cases hn
    | succ n =>
      obtain ⟨e', he'⟩ := Option.isSome_iff_exists.mp (hentries (a, e) List.mem_cons_self)
      obtain ⟨t, hdel, ht, hnext⟩ := htable.delete_head
      rw [map_fst] at hnext
      have hkept : ∀ b, (Function.update h.entries a (some { e' with clientList := [] }) b).isSome =
          (h.entries b).isSome := fun b => by
        by_cases hb : b = a
        · rw [hb, Function.update_self, he']
          rfl
        · rw [Function.update_of_ne hb]
      obtain ⟨h', hrun, hempty, hsame⟩ := @ih { h with
          messSndByRegexp := t
          entries := Function.update h.entries a (some { e' with clientList := [] }) } n ht
        (fun p hp => (hkept p.1).trans (hentries p (List.mem_cons_of_mem _ hp)))
        (Nat.le_of_succ_le_succ hn)
      refine ⟨h', ?_, hempty, fun b => (hsame b).trans (hkept b)⟩
      rw [List.map_cons, List.head?_cons, Hashed.delAllEntries, he', Option.bind_some, hdel,
        Option.bind_some, hnext]
      exact hrun

theorem Sim.delAllRegexpsFromDictionary (hs : Sim h s) :
    ∃ h', h.delAllRegexpsFromDictionary = some h' ∧ h'.messSndByRegexp.head = none ∧
      ∀ a, (h'.entries a).isSome = (h.entries a).isSome := by
  obtain ⟨l, hs⟩ := hs
  rw [Hashed.delAllRegexpsFromDictionary, hs.head_eq]
  exact delAllEntries_spec hs.table
    (fun p hp => Option.isSome_iff_exists.mpr ⟨p.2, (hs.entries p.1 p.2).mpr hp⟩) hs.count_eq.ge

end Run

/-- With its dictionary in the hash table an agent does to the outside what it does with a list of
entries. What is allocated is in the table, until `delAllRegexpsFromDictionary` empties it. -/
theorem dictionary_refines (engine : Engine Code) (s₀ : Ivy Code) (es : List Event)
    (hroom : Along (next engine) Room (unconnected s₀) es) :
    (run (next engine) (unconnected s₀) es).map Hashed.view =
      run (nextOfList engine) (unconnected s₀).ivy es ∧
    ∀ h, run (next engine) (unconnected s₀) es = some h →
      (∀ a, (h.entries a).isSome ↔ a ∈ h.messSndByRegexp.elements.getD []) ∧
      ∃ h', h.delAllRegexpsFromDictionary = some h' ∧ h'.messSndByRegexp.head = none ∧
        ∀ a, (h'.entries a).isSome = (h.entries a).isSome := by
  have hstep : ∀ (h : Hashed Code) (s : Ivy Code) (e : Event), Sim h s → Room h e →
      Option.Rel Sim (next engine h e) (nextOfList engine s e) := fun _ _ _ hs hroom =>
    hs.next hroom
  have hrel := rel_run hstep (sim_unconnected s₀) hroom
  refine ⟨map_eq_of_rel hrel fun h s hs => hs.view_eq, fun h hrun => ?_⟩
  obtain ⟨s, -, hs⟩ := rel_left hrel hrun
  exact ⟨hs.allocated_iff, hs.delAllRegexpsFromDictionary⟩

/-- Two applications share a subscription, and one of them goes. -/
theorem dictionary_refines_shared : ∃ h, run (next literal) (unconnected default)
      [.connect 1 ⟨1, 1, 1⟩ (ascii "a"), .connect 2 ⟨2, 2, 2⟩ (ascii "b"),
        .line 1 (header .addRegexp 1 ++ ascii "x"), .line 2 (header .addRegexp 1 ++ ascii "y"),
        .line 2 (header .addRegexp 2 ++ ascii "x"), .send (ascii "x"), .disconnect 2] = some h ∧
    h.messSndByRegexp.elements = some [0] ∧
    ∀ a, (h.entries a).isSome ↔ a ∈ h.messSndByRegexp.elements.getD [] := by
  have hroom : Along (next literal) Room (unconnected default)
      [.connect 1 ⟨1, 1, 1⟩ (ascii "a"), .connect 2 ⟨2, 2, 2⟩ (ascii "b"),
        .line 1 (header .addRegexp 1 ++ ascii "x"), .line 2 (header .addRegexp 1 ++ ascii "y"),
        .line 2 (header .addRegexp 2 ++ ascii "x"), .send (ascii "x"), .disconnect 2] := by
    decide +kernel
  refine ⟨_, rfl, by decide +kernel, ((dictionary_refines literal default _ hroom).2 _ rfl).1⟩

end IvyBus.Dictionary
