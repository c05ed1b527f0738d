import Mathlib.Data.List.ReduceOption
import JudgeServer.Server.Dispatch

/-! The choice of `push_solution`. The loading it compares is the condition of a
conditional expression, so it is 0 or 1, and the running minimum keeps the first client
without any load or else the last one of the list. -/

namespace JudgeServer

open Transition

/-- The solutions that a client has: those of its queue and the one it is checking. -/
def Client.load (c : Client) : ℕ :=
  c.solutionsQueue.length + if c.checkingSolution ≠ none then 1 else 0

/-- A client as it is when the loop has its mutex. -/
structure Examined where
  ref : ClientRef
  client : Client
  deriving DecidableEq, Repr

/-- The loop of `push_solution` over what its rounds find: a client, each in the state of
its own moment, or nothing for an id that is not in `clients_map`. -/
def scanList : List (Option Examined) → UInt32 → Option Examined → Option Examined
  | [], _, best => best
  | none :: rounds, least, best => scanList rounds least best
  | some e :: rounds, least, best =>
    if curLoading e.client = 0 then some e
    else if curLoading e.client ≤ least then scanList rounds (curLoading e.client) (some e)
    else scanList rounds least best

/-- The clients of the compiler that are in `clients_map`, in the order of its list. -/
def present (rounds : List (Option Examined)) : List Examined := rounds.reduceOption

/-- The 32-bit sum under the conditional expression is zero. -/
def Client.sumZero (c : Client) : Prop := UInt32.ofNat c.load = 0

instance (c : Client) : Decidable c.sumZero := inferInstanceAs (Decidable (_ = _))

/-- No other client of the compiler has less load than `e`. -/
def LeastLoaded (rounds : List (Option Examined)) (e : Examined) : Prop :=
  ∀ other ∈ present rounds, e.client.load ≤ other.client.load

instance (rounds : List (Option Examined)) (e : Examined) : Decidable (LeastLoaded rounds e) :=
  inferInstanceAs (Decidable (∀ _ ∈ _, _))

/-- The first client whose sum is zero is a least loaded one, and if there is none, the
last client of the list is. -/
def ZeroOrLastLeast (rounds : List (Option Examined)) : Prop :=
  match (present rounds).find? (·.client.sumZero) with
  | some e => LeastLoaded rounds e
  | none => ∀ e ∈ (present rounds).getLast?, LeastLoaded rounds e

theorem curLoading_eq (c : Client) : curLoading c = if c.sumZero then 0 else 1 := by
  unfold curLoading Client.sumZero Client.load
  split_ifs with hslot hsum <;> simp_all [UInt32.ofNat_add]

theorem scanList_eq {rounds : List (Option Examined)} {least : UInt32} {best : Option Examined}
    (hleast : 1 ≤ least) :
    scanList rounds least best =
      ((present rounds).find? (·.client.sumZero)).or ((present rounds).getLast?.or best) := by
  induction rounds generalizing least best with
  | nil => rfl
  | cons round rounds ih =>
    cases round with
    | none => exact ih hleast
    | some e =>
      have hpresent : present (some e :: rounds) = e :: present rounds := rfl
      rw [hpresent, List.find?_cons, List.getLast?_cons, scanList, curLoading_eq]
      by_cases hsum : e.client.sumZero
      · simp [hsum]
      · rw [if_neg hsum, if_neg (by decide), if_pos hleast, ih (by decide)]
        cases (present rounds).getLast? <;> simp [hsum]

theorem scanList_start (rounds : List (Option Examined)) :
    scanList rounds INT32_MAX none =
      ((present rounds).find? (·.client.sumZero)).or (present rounds).getLast? := by
  rw [scanList_eq (by decide), Option.or_none]

namespace Server

/-- What the rounds find when nothing changes while the list is searched. -/
def rounds (s : Server) (k : CompilerRef) : List (Option Examined) :=
  (s.compilersMap.obj k).clientsList.map fun id =>
    (s.findClient id).map fun c => ⟨c, s.clients c⟩

theorem chooseFrom_eq (s : Server) (k : CompilerRef) :
    s.chooseFrom k = (scanList (s.rounds k) INT32_MAX none).map Examined.ref := by
  have hloop : ∀ ids least (best : Option Examined),
      chooseClient s.findClient (fun c => curLoading (s.clients c)) ids least
          (best.map Examined.ref) =
        (scanList (ids.map fun id => (s.findClient id).map fun c => ⟨c, s.clients c⟩) least
          best).map Examined.ref := by
    intro ids
    induction ids with
    | nil => exact fun _ _ => rfl
    | cons id ids ih =>
      intro least best
      simp only [chooseClient, List.map_cons]
      cases s.findClient id with
      | none => exact ih least best
      | some c =>
        simp only [Option.map_some, scanList]
        split_ifs
        · rfl
        · exact ih _ (some ⟨c, s.clients c⟩)
        · exact ih least best
  exact hloop _ INT32_MAX none

end Server

/-- The client that gets the solution is a least loaded one exactly when the first client
without load is, or the last one if each has some. -/
theorem least_loaded_iff (rounds : List (Option Examined)) (e : Examined)
    (h : scanList rounds INT32_MAX none = some e) :
    LeastLoaded rounds e ↔ ZeroOrLastLeast rounds := by
  rw [scanList_start] at h
  unfold ZeroOrLastLeast
  cases hfind : (present rounds).find? (·.client.sumZero) with
  | some z =>
    rw [hfind, Option.some_or] at h
    obtain rfl := Option.some.inj h
    rfl
  | none =>
    rw [hfind, Option.none_or] at h
    simp [h]

/-- A client with two solutions, one that is not registered any more, and one with a
single solution. -/
def mixedRounds : List (Option Examined) :=
  [some ⟨0, ((clientCreate 1).push (decodeRow 0 (sampleRow 1))).push (decodeRow 1 (sampleRow 2))⟩,
    none, some ⟨2, (clientCreate 3).push (decodeRow 2 (sampleRow 3))⟩]

theorem least_loaded_mixed : ∃ e, scanList mixedRounds INT32_MAX none = some e ∧ e.client.load = 1 ∧
    LeastLoaded mixedRounds e ∧ ZeroOrLastLeast mixedRounds := by
  obtain ⟨e, he, hload, hleast⟩ : ∃ e, scanList mixedRounds INT32_MAX none = some e ∧
      e.client.load = 1 ∧ LeastLoaded mixedRounds e := ⟨_, rfl, rfl, by decide⟩
  exact ⟨e, he, hload, hleast, (least_loaded_iff mixedRounds e he).1 hleast⟩

/-- Two clients of one compiler, and three new solutions of the rows 1, 2 and 3. -/
def unevenRows : List Row := [sampleRow 1, sampleRow 2, sampleRow 3]

/-- They go to the clients 0, 1 and 1, the last one of the list. -/
def unevenRun : List Action :=
  joining 0 0 ++ joining 1 1 ++ [.submit (sampleRow 2), .submit (sampleRow 3)] ++ starting ++
    extracting unevenRows ++
    (((decodeRows 0 unevenRows).zip [0, 1, 1]).zip (decodeRows 0 unevenRows).tails.tail).flatMap
      fun p => .dispatch p.1.1 p.2 :: pushing .poll p.1.1 p.1.2

/-- The fourth solution would go to the client that has two of the three. -/
theorem busier_chosen :
    (¬ ∀ rounds e, scanList rounds INT32_MAX none = some e → LeastLoaded rounds e) ∧
    ∃ s, Reaches oneNewRow unevenRun s ∧ (present (s.rounds 0)).map (·.client.load) = [1, 2] ∧
      s.chooseFrom 0 = some 1 := by
  have hrun : Reaches oneNewRow unevenRun _ := Run.iff_foldlM.2 rfl
  refine ⟨fun h => ?_, _, hrun, rfl, rfl⟩
  have hleast := h [some ⟨0, (clientCreate 1).push (decodeRow 0 (sampleRow 1))⟩,
    some ⟨1, ((clientCreate 2).push (decodeRow 1 (sampleRow 2))).push
      (decodeRow 2 (sampleRow 3))⟩] _ rfl
  revert hleast
  decide

/-- A client whose queue does not fill 32 bits has the sum zero only without load. -/
theorem sumZero_iff {c : Client} (h : c.load < 2 ^ 32) : c.sumZero ↔ c.load = 0 := by
  unfold Client.sumZero
  rw [← UInt32.toNat_inj, UInt32.toNat_ofNat', Nat.mod_eq_of_lt h]
  rfl

/-- With such queues it is enough that some client is idle. -/
theorem zeroOrLastLeast_iff {rounds : List (Option Examined)}
    (h : ∀ e ∈ present rounds, e.client.load < 2 ^ 32) :
    ZeroOrLastLeast rounds ↔ (∃ e ∈ present rounds, e.client.load = 0) ∨
      ∀ e ∈ (present rounds).getLast?, LeastLoaded rounds e := by
  unfold ZeroOrLastLeast
  cases hfind : (present rounds).find? (·.client.sumZero) with
  | some z =>
    have hmem := List.mem_of_find?_eq_some hfind
    have hzero : z.client.load = 0 := (sumZero_iff (h z hmem)).1 (by simpa using List.find?_some hfind)
    refine iff_of_true (fun other _ => ?_) (Or.inl ⟨z, hmem, hzero⟩)
    rw [hzero]
    exact Nat.zero_le _
  | none =>
    refine (or_iff_right ?_).symm
    rintro ⟨e, he, hzero⟩
    have hsum : ¬ e.client.sumZero := by simpa using List.find?_eq_none.1 hfind e he
    exact hsum ((sumZero_iff (h e he)).2 hzero)

end JudgeServer
