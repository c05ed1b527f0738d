import JudgeServer.Server.Choice
import JudgeServer.Server.Lists

/-! What `compilers_map` knows of the announcements. The keys are four bytes long and the
ids two, so a look-up also compares the two bytes that follow an id. The map holds one
entry for each id, and the lists what was announced, in the runs where those bytes are
zero whenever they decide. -/

namespace JudgeServer

open Transition

theorem key16_toNat (id padding : UInt16) :
    (key16 id padding).toNat = padding.toNat * 65536 + id.toNat := by
  have hid : id.toNat < 65536 := id.toNat_lt
  have hpad : padding.toNat < 65536 := padding.toNat_lt
  have hshift : padding.toNat <<< 16 % 4294967296 = padding.toNat <<< 16 := by
    rw [Nat.shiftLeft_eq]
    omega
  have hor := Nat.shiftLeft_add_eq_or_of_lt (a := padding.toNat) (i := 16) hid
  rw [Nat.shiftLeft_eq] at hor
  simp only [key16, UInt32.toNat_or, UInt32.toNat_shiftLeft, UInt16.toNat_toUInt32]
  rw [show (16 : UInt32).toNat % 32 = 16 from rfl, hshift, Nat.or_comm, Nat.shiftLeft_eq, ← hor]

/-- Four bytes are the key of a zero-extended id when the last two of them are zero. -/
theorem key16_eq_iff (id padding c : UInt16) :
    key16 id padding = c.toUInt32 ↔ padding = 0 ∧ id = c := by
  have hid : id.toNat < 65536 := id.toNat_lt
  have hc : c.toNat < 65536 := c.toNat_lt
  rw [← UInt32.toNat_inj, key16_toNat, UInt16.toNat_toUInt32, ← UInt16.toNat_inj, ← UInt16.toNat_inj,
    UInt16.toNat_zero]
  omega

namespace CompilersMap

/-- At most one entry for each id, all with zero padding. -/
structure Keyed (m : CompilersMap) : Prop where
  nodup : m.chain.Nodup
  known : ∀ k ∈ m.chain, k < m.next
  zero : ∀ k ∈ m.chain, (m.obj k).padding = 0
  single : ∀ k ∈ m.chain, ∀ k' ∈ m.chain, (m.obj k).id = (m.obj k').id → k = k'

/-- The client is in the list of the compiler. -/
def Lists (m : CompilersMap) (clientId : UInt32) (compilerId : UInt16) : Prop :=
  ∃ k ∈ m.chain, (m.obj k).id = compilerId ∧ clientId ∈ (m.obj k).clientsList

/-- The bytes behind the local variable are zero if they decide whether the entry is
found, and those behind the field if they get into a new one. -/
def ZeroBytes (m : CompilersMap) (compilerId : UInt16) (mem : Memory) : Prop :=
  if ∃ k ∈ m.chain, (m.obj k).id = compilerId then mem.behindLocal = 0 else mem.behindField = 0

instance (m : CompilersMap) (compilerId : UInt16) (mem : Memory) :
    Decidable (m.ZeroBytes compilerId mem) :=
  inferInstanceAs (Decidable (if ∃ k ∈ m.chain, (m.obj k).id = compilerId then
    mem.behindLocal = 0 else mem.behindField = 0))

/-- So in all rounds of the registration loop. -/
def ZeroRounds (clientId : UInt32) : List UInt16 → List Memory → CompilersMap → Prop
  | [], _, _ => True
  | id :: ids, [], m =>
    m.ZeroBytes id ⟨0, 0, []⟩ ∧ ZeroRounds clientId ids [] (m.announce clientId id ⟨0, 0, []⟩)
  | id :: ids, mem :: mems, m =>
    m.ZeroBytes id mem ∧ ZeroRounds clientId ids mems (m.announce clientId id mem)

variable {m : CompilersMap} {clientId : UInt32} {compilerId : UInt16} {mem : Memory}

theorem Keyed.find_eq (h : Keyed m) (key : UInt32) :
    m.find key = m.chain.find? fun k => (m.obj k).id.toUInt32 = key := by
  refine List.find?_congr fun k hk => ?_
  have hkey : (m.obj k).key = (m.obj k).id.toUInt32 := by
    rw [Compiler.key, h.zero k hk, key16_eq_iff]
    exact ⟨rfl, rfl⟩
  rw [hkey]

/-- What a round of the registration loop does. -/
theorem Keyed.announce_cases (h : Keyed m) (clientId : UInt32)
    (hzero : m.ZeroBytes compilerId mem) :
    (∃ k ∈ m.chain, (m.obj k).id = compilerId ∧
      m.announce clientId compilerId mem = m.addClient k clientId) ∨
    (∀ k ∈ m.chain, (m.obj k).id ≠ compilerId) ∧ mem.behindField = 0 ∧
      m.announce clientId compilerId mem = (m.create compilerId mem).addClient m.next clientId := by
  unfold ZeroBytes at hzero
  split_ifs at hzero with hexists
  · obtain ⟨k, hk, hid⟩ := hexists
    have hlocal : key16 compilerId mem.behindLocal = compilerId.toUInt32 := by
      rw [key16_eq_iff]
      exact ⟨hzero, rfl⟩
    obtain ⟨k', hfind⟩ : ∃ k', m.find (key16 compilerId mem.behindLocal) = some k' := by
      rw [← Option.isSome_iff_exists, h.find_eq, hlocal, List.find?_isSome]
      exact ⟨k, hk, by simp [hid]⟩
    refine Or.inl ⟨k', List.mem_of_find?_eq_some hfind, ?_, by simp only [announce, hfind]⟩
    rw [h.find_eq, hlocal] at hfind
    have heq : (m.obj k').id.toUInt32 = compilerId.toUInt32 := by simpa using List.find?_some hfind
    exact UInt16.toUInt32_inj.1 heq
  · have hother : ∀ k ∈ m.chain, (m.obj k).id ≠ compilerId := fun k hk hid => hexists ⟨k, hk, hid⟩
    have hnone : m.find (key16 compilerId mem.behindLocal) = none := by
      rw [h.find_eq, List.find?_eq_none]
      intro k hk heq
      have hkey := (key16_eq_iff _ _ _).1 (by simpa using heq : (m.obj k).id.toUInt32 = _).symm
      exact hother k hk hkey.2.symm
    exact Or.inr ⟨hother, hzero, by simp only [announce, hnone]⟩

theorem addClient_id (k k' : CompilerRef) : ((m.addClient k clientId).obj k').id = (m.obj k').id := by
  by_cases hk : k' = k
  · subst hk
    simp [addClient]
  · simp [addClient, Function.update_of_ne hk]

theorem addClient_padding (k k' : CompilerRef) :
    ((m.addClient k clientId).obj k').padding = (m.obj k').padding := by
  by_cases hk : k' = k
  · subst hk
    simp [addClient]
  · simp [addClient, Function.update_of_ne hk]

theorem Keyed.addClient (h : Keyed m) (k : CompilerRef) : Keyed (m.addClient k clientId) := by
  refine ⟨h.nodup, h.known, fun k' hk' => ?_, fun k₁ h₁ k₂ h₂ heq => ?_⟩
  · rw [addClient_padding]
    exact h.zero k' hk'
  · rw [addClient_id, addClient_id] at heq
    exact h.single k₁ h₁ k₂ h₂ heq

theorem lists_addClient {k : CompilerRef} (hk : k ∈ m.chain) (id : UInt32) (c : UInt16) :
    (m.addClient k clientId).Lists id c ↔ m.Lists id c ∨ id = clientId ∧ (m.obj k).id = c := by
  constructor
  · rintro ⟨k', hk', hid, hmem⟩
    rw [addClient_id] at hid
    by_cases heq : k' = k
    · subst heq
      have hor : id ∈ (m.obj k').clientsList ∨ id = clientId := by
        simpa [CompilersMap.addClient] using hmem
      exact hor.imp (fun hold => ⟨k', hk', hid, hold⟩) fun hnew => ⟨hnew, hid⟩
    · refine Or.inl ⟨k', hk', hid, ?_⟩
      simpa [CompilersMap.addClient, Function.update_of_ne heq] using hmem
  · rintro (⟨k', hk', hid, hmem⟩ | ⟨rfl, hid⟩)
    · refine ⟨k', hk', by rw [addClient_id, hid], ?_⟩
      by_cases heq : k' = k
      · subst heq
        simp [CompilersMap.addClient, hmem]
      · simpa [CompilersMap.addClient, Function.update_of_ne heq] using hmem
    · exact ⟨k, hk, by rw [addClient_id, hid], by simp [CompilersMap.addClient]⟩

theorem Keyed.create_old (h : Keyed m) {k : CompilerRef} (hk : k ∈ m.chain) :
    (m.create compilerId mem).obj k = m.obj k := Function.update_of_ne (h.known k hk).ne ..

theorem create_new : (m.create compilerId mem).obj m.next = ⟨compilerId, mem.behindField, []⟩ :=
  Function.update_self ..

theorem mem_create {k : CompilerRef} :
    k ∈ (m.create compilerId mem).chain ↔ k = m.next ∨ k ∈ m.chain := by simp [create]

theorem Keyed.create (h : Keyed m) (hother : ∀ k ∈ m.chain, (m.obj k).id ≠ compilerId)
    (hzero : mem.behindField = 0) : Keyed (m.create compilerId mem) := by
  refine ⟨?_, fun k hk => ?_, fun k hk => ?_, fun k hk k' hk' heq => ?_⟩
  · have hnew : m.next ∉ m.chain := fun hmem => Nat.lt_irrefl _ (h.known _ hmem)
    exact (rehash_perm _ _).nodup_iff.2 (List.nodup_cons.2 ⟨hnew, h.nodup⟩)
  · rcases mem_create.1 hk with rfl | hk
    · exact Nat.lt_succ_self _
    · exact Nat.lt_succ_of_lt (h.known k hk)
  · rcases mem_create.1 hk with rfl | hk
    · rw [create_new, hzero]
    · rw [h.create_old hk]
      exact h.zero k hk
  · rcases mem_create.1 hk with rfl | hk <;> rcases mem_create.1 hk' with rfl | hk'
    · rfl
    · rw [create_new, h.create_old hk'] at heq
      exact absurd heq.symm (hother k' hk')
    · rw [create_new, h.create_old hk] at heq
      exact absurd heq (hother k hk)
    · rw [h.create_old hk, h.create_old hk'] at heq
      exact h.single k hk k' hk' heq

theorem Keyed.lists_create (h : Keyed m) (id : UInt32) (c : UInt16) :
    (m.create compilerId mem).Lists id c ↔ m.Lists id c := by
  constructor
  · rintro ⟨k, hk, hid, hmem⟩
    rcases mem_create.1 hk with rfl | hk
    · rw [create_new] at hmem
      cases hmem
    · rw [h.create_old hk] at hid hmem
      exact ⟨k, hk, hid, hmem⟩
  · rintro ⟨k, hk, hid, hmem⟩
    refine ⟨k, mem_create.2 (Or.inr hk), ?_, ?_⟩ <;> rwa [h.create_old hk]

/-- A round keeps the keys and puts the client into one list. -/
theorem Keyed.announce (h : Keyed m) (clientId : UInt32)
    (hzero : m.ZeroBytes compilerId mem) :
    Keyed (m.announce clientId compilerId mem) ∧ ∀ id c,
      (m.announce clientId compilerId mem).Lists id c ↔
        m.Lists id c ∨ id = clientId ∧ c = compilerId := by
  rcases h.announce_cases clientId hzero with ⟨k, hk, hid, heq⟩ | ⟨hother, hfield, heq⟩
  · rw [heq]
    refine ⟨h.addClient k, fun id c => ?_⟩
    rw [lists_addClient hk, hid, eq_comm (a := c)]
  · rw [heq]
    refine ⟨(h.create hother hfield).addClient m.next, fun id c => ?_⟩
    rw [lists_addClient (mem_create.2 (Or.inl rfl)), h.lists_create, create_new, eq_comm (a := c)]

theorem Keyed.announceAll {compilers : List UInt16} {mems : List Memory} (h : Keyed m)
    (hzero : ZeroRounds clientId compilers mems m) :
    Keyed (announceAll clientId compilers mems m) ∧ ∀ id c,
      (CompilersMap.announceAll clientId compilers mems m).Lists id c ↔
        m.Lists id c ∨ id = clientId ∧ c ∈ compilers := by
  fun_induction CompilersMap.announceAll clientId compilers mems m with
  | case1 => exact ⟨h, by simp⟩
  | case2 m compilerId ids ih | case3 m compilerId ids mem mems ih =>
    obtain ⟨hround, hlists⟩ := h.announce clientId hzero.1
    obtain ⟨hkeyed, hall⟩ := ih hround hzero.2
    refine ⟨hkeyed, fun id c => ?_⟩
    rw [hall, hlists, List.mem_cons, or_assoc, ← and_or_left]

theorem Keyed.unlist (h : Keyed m) (clientId : UInt32) :
    Keyed (m.unlist clientId) ∧ ∀ id c,
      (m.unlist clientId).Lists id c ↔ m.Lists id c ∧ id ≠ clientId := by
  have hid : ∀ k, ((m.unlist clientId).obj k).id = (m.obj k).id := by
    intro k
    simp only [CompilersMap.unlist]
    split_ifs <;> rfl
  have hpadding : ∀ k, ((m.unlist clientId).obj k).padding = (m.obj k).padding := by
    intro k
    simp only [CompilersMap.unlist]
    split_ifs <;> rfl
  have hlist : ∀ k ∈ m.chain, ((m.unlist clientId).obj k).clientsList =
      (m.obj k).clientsList.filter (· ≠ clientId) := by
    intro k hk
    simp only [CompilersMap.unlist, if_pos hk]
  refine ⟨⟨h.nodup, h.known, fun k hk => ?_, fun k hk k' hk' heq => ?_⟩, fun id c => ⟨?_, ?_⟩⟩
  · rw [hpadding]
    exact h.zero k hk
  · rw [hid, hid] at heq
    exact h.single k hk k' hk' heq
  · rintro ⟨k, hk, hk', hmem⟩
    rw [hlist k hk, List.mem_filter] at hmem
    exact ⟨⟨k, hk, (hid k).symm.trans hk', hmem.1⟩, by simpa using hmem.2⟩
  · rintro ⟨⟨k, hk, hk', hmem⟩, hne⟩
    refine ⟨k, hk, (hid k).trans hk', ?_⟩
    rw [hlist k hk, List.mem_filter]
    exact ⟨hmem, by simpa using hne⟩

/-- The entry that `push_solution` finds. -/
theorem Keyed.find_some (h : Keyed m) {key : UInt32} {k : CompilerRef} :
    m.find key = some k ↔ k ∈ m.chain ∧ (m.obj k).id.toUInt32 = key := by
  rw [h.find_eq]
  constructor
  · intro hfind
    exact ⟨List.mem_of_find?_eq_some hfind, by simpa using List.find?_some hfind⟩
  · rintro ⟨hk, hkey⟩
    obtain ⟨k', hfind⟩ : ∃ k', (m.chain.find? fun k => (m.obj k).id.toUInt32 = key) = some k' := by
      rw [← Option.isSome_iff_exists, List.find?_isSome]
      exact ⟨k, hk, by simp [hkey]⟩
    have hkey' : (m.obj k').id.toUInt32 = key := by simpa using List.find?_some hfind
    have hid : (m.obj k').id = (m.obj k).id := UInt16.toUInt32_inj.1 (hkey'.trans hkey.symm)
    rw [hfind, h.single k' (List.mem_of_find?_eq_some hfind) k hk hid]

end CompilersMap

def ERR_NOCOMPILER : ℤ := 1

def ERR_NOCLIENTS : ℤ := 2

namespace Server

/-- `push_solution` when nothing else happens meanwhile: its value and the server
afterwards. -/
def pushSolution (s : Server) (sln : Solution) (ok : Bool) : ℤ × Server :=
  match s.compilersMap.find sln.compilerId with
  | none => (ERR_NOCOMPILER, s.postFailed sln ok)
  | some k =>
    match s.chooseFrom k with
    | none => (ERR_NOCLIENTS, s.postFailed sln ok)
    | some c => (0, s.setClient c ((s.clients c).push sln))

@[simp] theorem setCall_setCall (s : Server) (who : Who) (call call' : Option PushCall) :
    (s.setCall who call).setCall who call' = s.setCall who call' := by
  simp [setCall, Function.update_idem]

section

variable {s : Server} {sln : Solution} {k : CompilerRef} {c : ClientRef} (ok : Bool)

theorem pushSolution_noCompiler (hfind : s.compilersMap.find sln.compilerId = none) :
    s.pushSolution sln ok = (ERR_NOCOMPILER, s.postFailed sln ok) := by
  simp only [pushSolution, hfind]

theorem pushSolution_noClients (hfind : s.compilersMap.find sln.compilerId = some k)
    (hchoose : s.chooseFrom k = none) :
    s.pushSolution sln ok = (ERR_NOCLIENTS, s.postFailed sln ok) := by
  simp only [pushSolution, hfind, hchoose]

theorem pushSolution_chosen (hfind : s.compilersMap.find sln.compilerId = some k)
    (hchoose : s.chooseFrom k = some c) :
    s.pushSolution sln ok = (0, s.setClient c ((s.clients c).push sln)) := by
  simp only [pushSolution, hfind, hchoose]

end

/-- It is what the steps of a call come to. -/
theorem pushSolution_run {s : Server} (hg : Guarded s) {who : Who} {sln : Solution}
    (hcall : s.calls who = some ⟨sln, .lookup⟩) (ok : Bool) :
    ∃ as, Run Server.step s as ((s.pushSolution sln ok).2.setCall who none) := by
  have hlookup : s.step (.lookup who sln) = some (s.next (.lookup who sln)) :=
    step_some.2 ⟨hcall, rfl⟩
  cases hfind : s.compilersMap.find sln.compilerId with
  | none =>
    have hnext : s.next (.lookup who sln) = s.setCall who (some ⟨sln, .noCompiler⟩) := by
      simp only [next, hfind]
    have hpost : (s.setCall who (some ⟨sln, .noCompiler⟩)).step (.noCompiler who sln ok) =
        some ((s.postFailed sln ok).setCall who none) := by
      refine step_some.2 ⟨s.setCall_same .., ?_⟩
      exact setCall_setCall (s.postFailed sln ok) who _ none
    rw [pushSolution_noCompiler ok hfind]
    exact ⟨_, (Run.single (hnext ▸ hlookup)).snoc hpost⟩
  | some k =>
    have hnext : s.next (.lookup who sln) = s.setCall who (some ⟨sln, .choose k⟩) := by
      simp only [next, hfind]
    have hrun := Run.single (hnext ▸ hlookup)
    have hsame : (s.setCall who (some ⟨sln, .choose k⟩)).chooseFrom k = s.chooseFrom k := rfl
    cases hchoose : s.chooseFrom k with
    | none =>
      have hpost : (s.setCall who (some ⟨sln, .choose k⟩)).step (.choose who sln k ok) =
          some ((s.postFailed sln ok).setCall who none) := by
        refine step_some.2 ⟨s.setCall_same .., ?_⟩
        simp only [next, hsame, hchoose]
        exact setCall_setCall (s.postFailed sln ok) who _ none
      rw [pushSolution_noClients ok hfind hchoose]
      exact ⟨_, hrun.snoc hpost⟩
    | some c =>
      have hchosen : (s.setCall who (some ⟨sln, .choose k⟩)).step (.choose who sln k ok) =
          some (s.setCall who (some ⟨sln, .append c⟩)) := by
        refine step_some.2 ⟨s.setCall_same .., ?_⟩
        simp only [next, hsame, hchoose, setCall_setCall]
      have happend : (s.setCall who (some ⟨sln, .append c⟩)).step (.append who sln c) =
          some ((s.setClient c ((s.clients c).push sln)).setCall who none) := by
        refine step_some.2 ⟨⟨s.setCall_same .., ?_⟩, ?_⟩
        · exact hg.registered_unlocked (chooseFrom_mem hchoose)
        · exact setCall_setCall (s.setClient c ((s.clients c).push sln)) who _ none
      rw [pushSolution_chosen ok hfind hchoose]
      exact ⟨_, (hrun.snoc hchosen).snoc happend⟩

/-- It finds nobody only if no entry of the list is registered. -/
theorem chooseFrom_eq_none {s : Server} {k : CompilerRef} :
    s.chooseFrom k = none ↔ ∀ id ∈ (s.compilersMap.obj k).clientsList, s.findClient id = none := by
  rw [chooseFrom_eq, scanList_start, Option.map_eq_none_iff, Option.or_eq_none_iff,
    List.getLast?_eq_none_iff]
  constructor
  · rintro ⟨-, hempty⟩ id hid
    by_contra hne
    obtain ⟨c, hc⟩ := Option.ne_none_iff_exists'.1 hne
    have hmem : (⟨c, s.clients c⟩ : Examined) ∈ present (s.rounds k) := by
      rw [present, List.reduceOption_mem_iff, rounds, List.mem_map]
      exact ⟨id, hid, by rw [hc]; rfl⟩
    rw [hempty] at hmem
    cases hmem
  · intro hnone
    have hempty : present (s.rounds k) = [] := by
      rw [List.eq_nil_iff_forall_not_mem]
      intro e he
      rw [present, List.reduceOption_mem_iff, rounds, List.mem_map] at he
      obtain ⟨id, hid, heq⟩ := he
      rw [hnone id hid] at heq
      cases heq
    simp [hempty]

end Server

/-- The client has announced the compiler in the run. -/
def Announced (as : List Action) (c : ClientRef) (compilerId : UInt16) : Prop :=
  ∃ t compilers mems, Action.announce t c compilers mems ∈ as ∧ compilerId ∈ compilers

/-- The client is registered and has announced the compiler of the solution. -/
def CanCheck (as : List Action) (s : Server) (sln : Solution) (c : ClientRef) : Prop :=
  c ∈ s.clientsMap ∧ ∃ compilerId : UInt16, compilerId.toUInt32 = sln.compilerId ∧
    Announced as c compilerId

/-- No removal is between the cleaning of the lists and the deletion of the client. -/
def Quiet (s : Server) : Prop := ∀ t me c, s.workers t ≠ .remove me c .map

/-- A solution is refused only when nobody can check it. -/
structure RefusesUnserved (as : List Action) (s : Server) : Prop where
  single : (s.compilersMap.chain.map fun k => (s.compilersMap.obj k).id).Nodup
  accepted : ∀ sln ok, (∃ c, CanCheck as s sln c) → ∃ c, CanCheck as s sln c ∧
    s.pushSolution sln ok = (0, s.setClient c ((s.clients c).push sln))
  refused : ∀ sln ok, (¬ ∃ c, CanCheck as s sln c) →
    ((s.pushSolution sln ok).1 = ERR_NOCOMPILER ∨ (s.pushSolution sln ok).1 = ERR_NOCLIENTS) ∧
      (∃ q, (s.pushSolution sln ok).2.log = q :: s.log ∧
        q.stmt = .postResult sln.id 0 (cstr "FL")) ∧
      (s.pushSolution sln ok).2.clients = s.clients

/-- The condition: a client that joins is fresh, and the bytes behind the ids that it
announces are zero where they decide. -/
def JoinsClean (s : Server) : Action → Prop
  | .announce _ me compilers mems =>
    s.compilersMap.ZeroRounds (s.clients me).id compilers mems
  | a => JoinsFresh s a

/-- What the lists know at any moment. -/
structure Announcements (as : List Action) (s : Server) : Prop where
  keyed : s.compilersMap.Keyed
  sound : ∀ id compilerId, s.compilersMap.Lists id compilerId →
    ∃ t me, (s.workers t).lists = some me ∧ (s.clients me).id = id ∧ Announced as me compilerId
  complete : ∀ me compilerId, me ∈ s.clientsMap → Announced as me compilerId →
    (∃ t, s.workers t = .remove me me .map) ∨ s.compilersMap.Lists (s.clients me).id compilerId
  born : ∀ me compilerId, Announced as me compilerId → me < s.nextClient

theorem announcements_init (db : Table) : Announcements [] (.init db) where
  keyed := ⟨List.nodup_nil, by simp [Server.init], by simp [Server.init], by simp [Server.init]⟩
  sound := by simp [CompilersMap.Lists, Server.init]
  complete := by simp [Server.init]
  born := by simp [Announced]

theorem announced_snoc {as : List Action} {a : Action} {me : ClientRef} {compilerId : UInt16} :
    Announced (as ++ [a]) me compilerId ↔ Announced as me compilerId ∨
      ∃ t compilers mems, a = .announce t me compilers mems ∧ compilerId ∈ compilers := by
  constructor
  · rintro ⟨t, compilers, mems, hmem, hid⟩
    rcases List.mem_append.1 hmem with hmem | hmem
    · exact Or.inl ⟨t, compilers, mems, hmem, hid⟩
    · exact Or.inr ⟨t, compilers, mems, (List.mem_singleton.1 hmem).symm, hid⟩
  · rintro (⟨t, compilers, mems, hmem, hid⟩ | ⟨t, compilers, mems, rfl, hid⟩)
    · exact ⟨t, compilers, mems, List.mem_append_left _ hmem, hid⟩
    · exact ⟨t, compilers, mems, by simp, hid⟩

/-- A thread that has cleaned the lists stays there until it deletes the client. -/
theorem cleaned_forward {s s' : Server} {a : Action} (hs : s.step a = some s') {t : Tid}
    {me c : ClientRef} (hw : s.workers t = .remove me c .map) :
    s'.workers t = .remove me c .map ∨ a = .unmap t me c := by
  by_cases ht : Server.thread a = some t
  swap
  · rw [Server.workers_other hs ht]
    exact Or.inl hw
  have hmoves := moves_step hs ht
  rw [hw] at hmoves
  generalize s'.workers t = pc' at hmoves
  cases hmoves with
  | unmap => exact Or.inr rfl
  | outside hnone _ => cases hnone

namespace Announcements

variable {as : List Action} {s s' : Server} {a : Action}

theorem sound_old (h : Announcements as s) (hl : Listed s) (hs : s.step a = some s') {id : UInt32}
    {compilerId : UInt16} (hlists : s.compilersMap.Lists id compilerId)
    (hclean : ∀ t me c, a = .unlist t me c → id ≠ (s.clients me).id) :
    ∃ t me, (s'.workers t).lists = some me ∧ (s'.clients me).id = id ∧
      Announced (as ++ [a]) me compilerId := by
  obtain ⟨t, me, hme, hid, hann⟩ := h.sound id compilerId hlists
  have hserves := serves_of_lists hme
  have hid' : (s'.clients me).id = id := (hl.serves_id hs hserves).trans hid
  rcases lists_forward hs hme with hstill | ⟨c, rfl⟩ | hnone
  · exact ⟨t, me, hstill, hid', announced_snoc.2 (Or.inl hann)⟩
  · exact absurd hid.symm (hclean t me c rfl)
  · obtain ⟨c, hc, hcid⟩ := hl.exists_entry ⟨me, hserves, rfl⟩
    exact absurd hcid (findClient_eq_none.1 hnone c hc)

/-- A client that was in the map before the step. -/
theorem complete_old (hg : Guarded s) (h : Announcements as s) (hs : s.step a = some s')
    {me : ClientRef} {compilerId : UInt16} (hmem : me ∈ s.clientsMap)
    (hann : Announced as me compilerId) (hunmap : ∀ t, a ≠ .unmap t me me)
    (hlists : ∀ id, s.compilersMap.Lists id compilerId → id = (s.clients me).id →
      s'.compilersMap.Lists id compilerId) :
    (∃ t, s'.workers t = .remove me me .map) ∨
      s'.compilersMap.Lists (s'.clients me).id compilerId := by
  rcases h.complete me compilerId hmem hann with ⟨t, hw⟩ | hold
  · rcases cleaned_forward hs hw with hstill | heq
    · exact Or.inl ⟨t, hstill⟩
    · exact absurd heq (hunmap t)
  · rw [id_step hs (hg.known me hmem)]
    exact Or.inr (hlists _ hold rfl)

theorem announce (hg : Guarded s) (hl : Listed s) (h : Announcements as s) {t : Tid}
    {me : ClientRef} {compilers : List UInt16} {mems : List CompilersMap.Memory}
    (hs : s.step (.announce t me compilers mems) = some s')
    (hzero : s.compilersMap.ZeroRounds (s.clients me).id compilers mems) :
    Announcements (as ++ [.announce t me compilers mems]) s' := by
  obtain ⟨hkeyed, hlists⟩ := h.keyed.announceAll hzero
  have hserves : (s.workers t).serves = some me := by
    rw [show s.workers t = _ from (Server.step_some.1 hs).1]
    rfl
  have hmaps : s'.compilersMap =
      .announceAll (s.clients me).id compilers mems s.compilersMap := by
    obtain ⟨-, rfl⟩ := Server.step_some.1 hs
    rfl
  have hloop : (s'.workers t).lists = some me := by
    obtain ⟨-, rfl⟩ := Server.step_some.1 hs
    rw [show (s.next (.announce t me compilers mems)).workers t = _ from Function.update_self ..]
    rfl
  have hid := hl.serves_id hs hserves
  rw [← hmaps] at hkeyed hlists
  refine ⟨hkeyed, fun id c hlist => ?_, fun me' c hmem hann => ?_, fun me' c hann => ?_⟩
  · rcases (hlists id c).1 hlist with hold | ⟨rfl, hc⟩
    · exact h.sound_old hl hs hold (by simp)
    · exact ⟨t, me, hloop, hid, announced_snoc.2 (Or.inr ⟨t, compilers, mems, rfl, hc⟩)⟩
  · rw [clientsMap_same hs (by simp) (by simp)] at hmem
    rcases announced_snoc.1 hann with hold | ⟨t', compilers', mems', heq, hc⟩
    · exact h.complete_old hg hs hmem hold (by simp) fun id hid _ => (hlists id c).2 (Or.inl hid)
    · obtain ⟨-, rfl, rfl, -⟩ := Action.announce.inj heq
      exact Or.inr ((hlists _ c).2 (Or.inr ⟨hid, hc⟩))
  · refine lt_of_lt_of_le ?_ (nextClient_step hs)
    rcases announced_snoc.1 hann with hold | ⟨t', compilers', mems', heq, -⟩
    · exact h.born me' c hold
    · obtain ⟨-, rfl, -⟩ := Action.announce.inj heq
      exact hl.born t _ hserves

/-- Steps that announce nothing and leave the map alone. -/
theorem other (hg : Guarded s) (hl : Listed s) (h : Announcements as s) (hs : s.step a = some s')
    (hann : ∀ t me compilers mems, a ≠ .announce t me compilers mems)
    (hunlist : ∀ t me c, a ≠ .unlist t me c)
    (hmap : ∀ me ∈ s'.clientsMap, me = s.nextClient ∨ me ∈ s.clientsMap ∧ ∀ t, a ≠ .unmap t me me) :
    Announcements (as ++ [a]) s' := by
  have hmaps := compilersMap_same hs hann hunlist
  have hback : ∀ {me c}, Announced (as ++ [a]) me c → Announced as me c := by
    intro me c h'
    rcases announced_snoc.1 h' with hold | ⟨t, compilers, mems, heq, -⟩
    · exact hold
    · exact absurd heq (hann t me compilers mems)
  refine ⟨hmaps ▸ h.keyed, fun id c hc => ?_, fun me c hmem hann' => ?_, fun me c hann' => ?_⟩
  · rw [hmaps] at hc
    exact h.sound_old hl hs hc fun t me c' heq => absurd heq (hunlist t me c')
  · rcases hmap me hmem with rfl | ⟨hold, hunmap⟩
    · exact absurd (h.born _ c (hback hann')) (Nat.lt_irrefl _)
    · exact h.complete_old hg hs hold (hback hann') hunmap fun id hid _ => by rwa [hmaps]
  · exact lt_of_lt_of_le (h.born me c (hback hann')) (nextClient_step hs)

/-- The client whose id is cleaned from the lists is the one about to be deleted. -/
theorem unlist (hg : Guarded s) (hn : Numbered s) (hl : Listed s) (h : Announcements as s) {t : Tid}
    {me c : ClientRef} (hs : s.step (.unlist t me c) = some s') :
    Announcements (as ++ [.unlist t me c]) s' := by
  obtain ⟨hen, hs'⟩ := Server.step_some.1 hs
  obtain rfl := hn.own t me c _ hen
  obtain ⟨hkeyed, hlists⟩ := h.keyed.unlist (s.clients c).id
  have hmaps : s'.compilersMap = s.compilersMap.unlist (s.clients c).id := hs' ▸ rfl
  rw [← hmaps] at hkeyed hlists
  have hback : ∀ {me c'}, Announced (as ++ [.unlist t c c]) me c' → Announced as me c' := by
    intro me c' h'
    rcases announced_snoc.1 h' with hold | ⟨t', compilers, mems, heq, -⟩
    · exact hold
    · cases heq
  have hmine : c ∈ s.clientsMap := hn.serving t c (by rw [hen]; rfl)
  refine ⟨hkeyed, fun id c' hc => ?_, fun me c' hmem hann => ?_, fun me c' hann => ?_⟩
  · obtain ⟨hold, hne⟩ := (hlists id c').1 hc
    refine h.sound_old hl hs hold fun t' me' d heq => ?_
    obtain ⟨-, rfl, -⟩ := Action.unlist.inj heq
    exact hne
  · rw [clientsMap_same hs (by simp) (by simp)] at hmem
    by_cases hme : me = c
    · subst hme
      refine Or.inl ⟨t, ?_⟩
      rw [← hs']
      exact Function.update_self ..
    · refine h.complete_old hg hs hmem (hback hann) (by simp) fun id hid heq => ?_
      refine (hlists id c').2 ⟨hid, fun hclash => hme ?_⟩
      exact List.inj_on_of_nodup_map hn.distinct hmem hmine (heq.symm.trans hclash)
  · exact lt_of_lt_of_le (h.born me c' (hback hann)) (nextClient_step hs)

theorem step (hg : Guarded s) (hn : Numbered s) (hl : Listed s) (h : Announcements as s)
    (hs : s.step a = some s') (hclean : JoinsClean s a) : Announcements (as ++ [a]) s' := by
  cases a with
  | announce t me compilers mems => exact h.announce hg hl hs hclean
  | unlist t me c => exact h.unlist hg hn hl hs
  | register t compilers order =>
    refine h.other hg hl hs (by simp) (by simp) fun me hme => ?_
    obtain ⟨-, rfl⟩ := Server.step_some.1 hs
    exact (List.mem_cons.1 (mem_rehash.1 hme)).imp_right fun hold => ⟨hold, by simp⟩
  | unmap t me c =>
    refine h.other hg hl hs (by simp) (by simp) fun me' hme => Or.inr ?_
    obtain ⟨-, rfl⟩ := Server.step_some.1 hs
    obtain ⟨hold, hne⟩ := List.mem_filter.1 hme
    refine ⟨hold, fun u heq => ?_⟩
    obtain ⟨-, rfl, rfl⟩ := Action.unmap.inj heq
    simp at hne
  | _ =>
    refine h.other hg hl hs (by simp) (by simp) fun me hme => Or.inr ⟨?_, by simp⟩
    rwa [clientsMap_same hs (by simp) (by simp)] at hme

end Announcements

theorem JoinsClean.fresh {s : Server} {a : Action} (h : JoinsClean s a) : JoinsFresh s a := by
  cases a <;> first | exact h | trivial

theorem reaches_announcements {db : Table} {as : List Action} {s : Server} (h : Reaches db as s)
    (hclean : Along Server.step (.init db) as JoinsClean) :
    (Guarded s ∧ Numbered s) ∧ Listed s ∧ Announcements as s := by
  induction h with
  | nil =>
    exact ⟨⟨guarded_init db, numbered_init db⟩, listed_init db, announcements_init db⟩
  | snoc hr hs ih =>
    obtain ⟨hbefore, ha⟩ := (along_snoc hr).1 hclean
    obtain ⟨⟨hg, hn⟩, hl, hann⟩ := ih hbefore
    exact ⟨⟨step_guarded hg hs, hn.step hg hs ha.fresh⟩, hl.step hg hs, hann.step hg hn hl hs ha⟩

namespace Announcements

variable {as : List Action} {s : Server}

/-- Every id of a list is that of a registered client that has announced the compiler,
and it is this client that the look-up finds. -/
theorem find_listed (hn : Numbered s) (h : Announcements as s) {k : CompilerRef}
    (hk : k ∈ s.compilersMap.chain) {id : UInt32} (hid : id ∈ (s.compilersMap.obj k).clientsList) :
    ∃ c, s.findClient id = some c ∧ c ∈ s.clientsMap ∧ Announced as c (s.compilersMap.obj k).id := by
  obtain ⟨t, me, hme, hmeid, hann⟩ := h.sound id _ ⟨k, hk, rfl, hid⟩
  have hmem := hn.serving t me (serves_of_lists hme)
  exact ⟨me, by rw [← hmeid, findClient_self hn.distinct hmem], hmem, hann⟩

/-- The entry of a compiler that a registered client has announced lists this client. -/
theorem exists_listed (h : Announcements as s) (hquiet : Quiet s) {sln : Solution} {c : ClientRef}
    (hc : CanCheck as s sln c) : ∃ k, s.compilersMap.find sln.compilerId = some k ∧
      (s.clients c).id ∈ (s.compilersMap.obj k).clientsList := by
  obtain ⟨hmem, compilerId, hid, hann⟩ := hc
  rcases h.complete c compilerId hmem hann with ⟨t, hw⟩ | ⟨k, hk, hkid, hlist⟩
  · exact absurd hw (hquiet t c c)
  · exact ⟨k, h.keyed.find_some.2 ⟨hk, by rw [hkid, hid]⟩, hlist⟩

theorem refuses_unserved (hn : Numbered s) (h : Announcements as s) (hquiet : Quiet s) :
    RefusesUnserved as s := by
  refine ⟨?_, fun sln ok hcan => ?_, fun sln ok hnone => ?_⟩
  · exact List.Nodup.map_on h.keyed.single h.keyed.nodup
  · obtain ⟨c, hc⟩ := hcan
    obtain ⟨k, hfind, hlist⟩ := h.exists_listed hquiet hc
    obtain ⟨hk, hkey⟩ := h.keyed.find_some.1 hfind
    cases hchoose : s.chooseFrom k with
    | none =>
      obtain ⟨d, hd, -, -⟩ := h.find_listed hn hk hlist
      rw [Server.chooseFrom_eq_none.1 hchoose _ hlist] at hd
      cases hd
    | some d =>
      rcases chooseClient_mem hchoose with hbest | ⟨id, hid, hfound⟩
      · cases hbest
      obtain ⟨e, he, hmem, hann⟩ := h.find_listed hn hk hid
      obtain rfl := Option.some.inj (he.symm.trans hfound)
      exact ⟨e, ⟨hmem, _, hkey, hann⟩, Server.pushSolution_chosen ok hfind hchoose⟩
  · cases hfind : s.compilersMap.find sln.compilerId with
    | none =>
      rw [Server.pushSolution_noCompiler ok hfind]
      exact ⟨Or.inl rfl, ⟨_, rfl, rfl⟩, rfl⟩
    | some k =>
      obtain ⟨hk, hkey⟩ := h.keyed.find_some.1 hfind
      -- an entry of the list would be a client that can check the solution
      have hempty : ∀ id ∈ (s.compilersMap.obj k).clientsList, s.findClient id = none := by
        intro id hid
        obtain ⟨c, -, hmem, hann⟩ := h.find_listed hn hk hid
        exact absurd ⟨c, hmem, _, hkey, hann⟩ hnone
      rw [Server.pushSolution_noClients ok hfind (Server.chooseFrom_eq_none.2 hempty)]
      exact ⟨Or.inr rfl, ⟨_, rfl, rfl⟩, rfl⟩

end Announcements

/-- In every run whose registrations are clean. -/
theorem refused_only_unserved (db : Table) (as : List Action) (s : Server) (h : Reaches db as s)
    (hclean : Along Server.step (.init db) as JoinsClean) (hquiet : Quiet s) :
    RefusesUnserved as s := by
  obtain ⟨⟨-, hn⟩, -, hann⟩ := reaches_announcements h hclean
  exact hann.refuses_unserved hn hquiet

/-- Two clients announce compiler 5, the second of them twice. -/
def announceRun : List Action :=
  joining 0 0 ++ [.accept 1 [5, 5], .register 1 [5, 5] [], .announce 1 1 [5, 5] []]

/-- Threads that take no step of a run stay idle. -/
theorem quiet_of_idle {db : Table} {as : List Action} {s : Server} (h : Reaches db as s)
    (ts : List Tid) (hthreads : ∀ a ∈ as, ∀ t, Server.thread a = some t → t ∈ ts)
    (hquiet : ∀ t ∈ ts, (s.workers t).removes = none) : Quiet s := by
  intro t me c hw
  by_cases ht : t ∈ ts
  · have hnone := hquiet t ht
    rw [hw] at hnone
    cases hnone
  · rw [workers_run h fun a ha hthread => ht (hthreads a ha t hthread)] at hw
    cases hw

theorem refused_only_unserved_joining :
    ∃ s, Reaches oneNewRow announceRun s ∧ RefusesUnserved announceRun s := by
  have hrun : Reaches oneNewRow announceRun _ := Run.iff_foldlM.2 rfl
  refine ⟨_, hrun, refused_only_unserved oneNewRow announceRun _ hrun ?_ ?_⟩
  · have hempty : JoinsFresh ((Server.init oneNewRow).next (.accept 0 [5])) (.register 0 [5] []) :=
      fun c hc => nomatch hc
    have htwo : (2 : UInt32) ≠ 1 := by decide
    refine (along_cons rfl).2 ⟨trivial, (along_cons rfl).2 ⟨hempty, (along_cons rfl).2 ⟨?_, ?_⟩⟩⟩
    · exact ⟨by decide, trivial⟩
    refine (along_cons rfl).2 ⟨trivial, (along_cons rfl).2 ⟨fun c hc => ?_, ?_⟩⟩
    · obtain rfl := List.mem_singleton.1 hc
      exact htwo.symm
    · exact (along_cons rfl).2 ⟨⟨by decide, by decide, trivial⟩, along_nil⟩
  · exact quiet_of_idle hrun [0, 1] (by simp [announceRun, joining, Server.thread]) (by decide)

/-- A client announces compiler 5 while the byte behind the field of the entry is 1. -/
def paddedRun : List Action :=
  [.accept 0 [5], .register 0 [5] [], .announce 0 0 [5] [⟨0, 1, []⟩]]

/-- It can check the solution, and the solution is refused. -/
theorem announced_refused :
    ¬ ∀ (db : Table) (as : List Action) (s : Server), Reaches db as s → Quiet s →
      RefusesUnserved as s := by
  intro h
  have hrun : Reaches oneNewRow paddedRun _ := Run.iff_foldlM.2 rfl
  have hquiet := quiet_of_idle hrun [0] (by simp [paddedRun, Server.thread]) (by decide)
  have hrefuses := h oneNewRow paddedRun _ hrun hquiet
  obtain ⟨c, -, hpush⟩ := hrefuses.accepted (decodeRow 0 (sampleRow 1)) true
    ⟨0, by decide, 5, by decide, 0, [5], [⟨0, 1, []⟩], by simp [paddedRun], by decide⟩
  have hcode : (1 : ℤ) = 0 := congrArg Prod.fst hpush
  exact absurd hcode (by decide)

end JudgeServer
