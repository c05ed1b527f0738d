import JudgeServer.Server.Accounting
import JudgeServer.Server.Durability

/-! The memory of the solution objects. The rows of one extraction are decoded into one
array, so only its first element is an address that `free` takes back, and freeing it
takes the others with it. -/

namespace JudgeServer

open Transition Placement

/-- A block of `calloc(len, sizeof(solution_t))`; its elements have the addresses from
`base` on. -/
structure SlnArray where
  base : ℕ
  len : ℕ
  deriving DecidableEq, Repr

def SlnArray.contains (b : SlnArray) (sln : Solution) : Prop :=
  b.base ≤ sln.addr ∧ sln.addr < b.base + b.len

/-- The allocation of an extraction that has selected rows, also of one that fails
later on. -/
def Server.callocs (s : Server) : Action → List SlnArray
  | .query e ok =>
    match e.stmt with
    | some stmt =>
      match e.next (ok && s.conn = .open) (s.query stmt ok).db with
      | .ret _ rows => if rows = [] then [] else [⟨s.nextAddr, rows.length⟩]
      | _ => []
    | none => []
  | _ => []

/-- `free(sln)` of `solution_free`: only a block that is allocated can be freed, and
only by its first address. -/
def solutionFree (arrays : List SlnArray) (sln : Solution) : Option (List SlnArray) :=
  if ∃ b ∈ arrays, b.base = sln.addr then some (arrays.filter fun b => b.base ≠ sln.addr) else none

/-- The objects that a step passes to `solution_free`: the outstanding one after its result,
and what `client_free` finds in the queue and in the slot. -/
def Server.frees (s : Server) (a : Action) : List Solution :=
  s.departs a .released ++ s.departs a .discarded

structure Memory where
  server : Server
  arrays : List SlnArray

/-- A step of the server with its calls of `calloc` and `free`; an invalid `free` has
no outcome. -/
def Memory.step (m : Memory) (a : Action) : Option Memory :=
  match m.server.step a, (m.server.frees a).foldlM solutionFree m.arrays with
  | some s, some arrays => some ⟨s, arrays ++ m.server.callocs a⟩
  | _, _ => none

def Memory.init (db : Table) : Memory := ⟨.init db, []⟩

/-- The solutions of each extraction of a run that returned some. -/
def batches (db : Table) (as : List Action) : List (List Solution) :=
  outputs Server.step (fun s a => if s.issues a = [] then [] else [s.issues a]) (.init db) as

def callocsBy (db : Table) (as : List Action) : List SlnArray :=
  outputs Server.step Server.callocs (.init db) as

def freedBy (db : Table) (as : List Action) : List Solution :=
  outputs Server.step Server.frees (.init db) as

/-- Arrays that follow one another, the last one below `next`. -/
structure Laid (arrays : List SlnArray) (next : ℕ) : Prop where
  ordered : arrays.Pairwise fun b b' => b.base + b.len ≤ b'.base
  below : ∀ b ∈ arrays, b.base + b.len ≤ next
  nonempty : ∀ b ∈ arrays, 0 < b.len

theorem Laid.snoc {arrays : List SlnArray} {next len : ℕ} (h : Laid arrays next) (hlen : 0 < len) :
    Laid (arrays ++ [⟨next, len⟩]) (next + len) where
  ordered := by
    refine List.pairwise_append.2 ⟨h.ordered, List.pairwise_singleton _ _, fun b hb b' hb' => ?_⟩
    rw [List.mem_singleton.1 hb']
    exact h.below b hb
  below b hb := by
    rcases List.mem_append.1 hb with hb | hb
    · exact (h.below b hb).trans (Nat.le_add_right _ _)
    · rw [List.mem_singleton.1 hb]
  nonempty b hb := by
    rcases List.mem_append.1 hb with hb | hb
    · exact h.nonempty b hb
    · rw [List.mem_singleton.1 hb]
      exact hlen

/-- An address lies in one array only. -/
theorem Laid.unique {arrays : List SlnArray} {next : ℕ} (h : Laid arrays next) {b b' : SlnArray}
    (hb : b ∈ arrays) (hb' : b' ∈ arrays) {x : ℕ} (hx : b.base ≤ x ∧ x < b.base + b.len)
    (hx' : b'.base ≤ x ∧ x < b'.base + b'.len) : b = b' := by
  have hrel : ∀ {c d : SlnArray}, c.base + c.len ≤ d.base →
      (c.base ≤ x ∧ x < c.base + c.len) → (d.base ≤ x ∧ x < d.base + d.len) → False := by
    intro c d _ _ _
    omega
  by_contra hne
  obtain ⟨i, hi, rfl⟩ := List.mem_iff_getElem.1 hb
  obtain ⟨j, hj, rfl⟩ := List.mem_iff_getElem.1 hb'
  have hij : i ≠ j := by
    rintro rfl
    exact hne rfl
  rcases Nat.lt_or_gt_of_ne hij with hlt | hlt
  · exact hrel (List.pairwise_iff_getElem.1 h.ordered i j hi hj hlt) hx hx'
  · exact hrel (List.pairwise_iff_getElem.1 h.ordered j i hj hi hlt) hx' hx

/-- What one step allocates, and what it makes of it. -/
inductive Callocs (s s' : Server) (a : Action) : Prop
  | none (hcallocs : s.callocs a = []) (hissues : s.issues a = []) (hnext : s'.nextAddr = s.nextAddr)
  | array (len : ℕ) (hlen : 0 < len) (hcallocs : s.callocs a = [⟨s.nextAddr, len⟩])
      (hnext : s'.nextAddr = s.nextAddr + len)
      (hissues : s.issues a = [] ∨
        (s.issues a).map Solution.addr = List.range' s.nextAddr len)

theorem step_callocs {s s' : Server} {a : Action} (hs : s.step a = some s') : Callocs s s' a := by
  obtain ⟨hen, rfl⟩ := Server.step_some.1 hs
  cases a with
  | query e ok =>
    obtain ⟨stmt, hstmt, heq⟩ := Server.next_query hen
    cases hret : e.next (ok && s.conn = .open) (s.query stmt ok).db with
    | ret code rows =>
      rw [hret] at heq
      have hnext : (s.next (.query e ok)).nextAddr = s.nextAddr + rows.length := by rw [heq]; rfl
      have hissues : s.issues (.query e ok) =
          if code = 0 then decodeRows s.nextAddr rows else [] := by
        simp only [Server.issues, hstmt, hret]
      have hcallocs : s.callocs (.query e ok) =
          if rows = [] then [] else [⟨s.nextAddr, rows.length⟩] := by
        simp only [Server.callocs, hstmt, hret]
      by_cases hrows : rows = []
      · subst hrows
        refine .none (by simpa using hcallocs) ?_ hnext
        rw [hissues]
        split_ifs <;> rfl
      · refine .array rows.length (List.length_pos_iff.2 hrows) ?_ hnext ?_
        · rw [hcallocs, if_neg hrows]
        · rw [hissues]
          split_ifs
          · exact Or.inr (decodeRows_addrs s.nextAddr rows)
          · exact Or.inl rfl
    | _ =>
      rw [hret] at heq
      refine .none ?_ ?_ (by rw [heq]; rfl)
      · simp only [Server.callocs, hstmt, hret]
      · simp only [Server.issues, hstmt, hret]
  | loop t me l ev =>
    obtain ⟨c, l', -, heq⟩ := Server.next_loop hen
    exact .none rfl rfl (by rw [heq]; exact s.postEffect_nextAddr l ev)
  | submit | find | lock | lookup | choose =>
    refine .none rfl rfl ?_
    simp only [Server.next]
    split <;> rfl
  | _ => exact .none rfl rfl rfl

/-- The arrays of a run do not overlap, and every batch fills one of them. -/
structure Arranged (db : Table) (as : List Action) (s : Server) : Prop where
  laid : Laid (callocsBy db as) s.nextAddr
  filled : ∀ batch ∈ batches db as, ∃ b ∈ callocsBy db as,
    batch.map Solution.addr = List.range' b.base b.len

theorem reaches_arranged {db : Table} {as : List Action} {s : Server} (h : Reaches db as s) :
    Arranged db as s := by
  induction h with
  | nil =>
    refine ⟨⟨List.Pairwise.nil, ?_, ?_⟩, ?_⟩ <;> simp [callocsBy, batches, outputs]
  | @snoc as a s s' hr hs ih =>
    have hc : callocsBy db (as ++ [a]) = callocsBy db as ++ s.callocs a := outputs_snoc hr a
    have hb : batches db (as ++ [a]) =
        batches db as ++ if s.issues a = [] then [] else [s.issues a] := outputs_snoc hr a
    cases step_callocs hs with
    | none hcallocs hissues hnext =>
      rw [hcallocs, List.append_nil] at hc
      rw [if_pos hissues, List.append_nil] at hb
      refine ⟨?_, ?_⟩
      · rw [hc, hnext]
        exact ih.laid
      · rw [hb, hc]
        exact ih.filled
    | array len hlen hcallocs hnext hissues =>
      rw [hcallocs] at hc
      refine ⟨?_, fun batch hbatch => ?_⟩
      · rw [hc, hnext]
        exact ih.laid.snoc hlen
      · rw [hc]
        rw [hb, List.mem_append] at hbatch
        rcases hbatch with hbatch | hbatch
        · obtain ⟨b, hmem, heq⟩ := ih.filled batch hbatch
          exact ⟨b, List.mem_append_left _ hmem, heq⟩
        · split_ifs at hbatch with hnone
          · cases hbatch
          · rw [List.mem_singleton.1 hbatch]
            exact ⟨_, List.mem_append_right _ (List.mem_singleton.2 rfl), hissues.resolve_left hnone⟩

theorem mem_issuedBy {db : Table} {as : List Action} {s : Server} (h : Reaches db as s)
    {sln : Solution} : sln ∈ issuedBy db as ↔ ∃ batch ∈ batches db as, sln ∈ batch := by
  induction h with
  | nil => simp [issuedBy, batches, outputs]
  | @snoc as a s s' hr hs ih =>
    rw [issuedBy, outputs_snoc hr, List.mem_append, batches, outputs_snoc hr]
    have hlast : sln ∈ s.issues a ↔
        ∃ batch ∈ (if s.issues a = [] then [] else [s.issues a]), sln ∈ batch := by
      split_ifs with hnone
      · simp [hnone]
      · simp
    simp only [List.mem_append, or_and_right, exists_or]
    rw [← hlast]
    exact or_congr_left ih

/-- An issued object lies in the array that its batch fills. -/
theorem issued_array {db : Table} {as : List Action} {s : Server} (h : Reaches db as s)
    {sln : Solution} (hsln : sln ∈ issuedBy db as) :
    ∃ batch ∈ batches db as, sln ∈ batch ∧ ∃ b ∈ callocsBy db as,
      batch.map Solution.addr = List.range' b.base b.len ∧ b.contains sln := by
  obtain ⟨batch, hbatch, hmem⟩ := (mem_issuedBy h).1 hsln
  obtain ⟨b, hb, heq⟩ := (reaches_arranged h).filled batch hbatch
  have haddr := List.mem_map_of_mem (f := Solution.addr) hmem
  rw [heq, List.mem_range'_1] at haddr
  exact ⟨batch, hbatch, hmem, b, hb, heq, haddr⟩

/-- Two solutions of a run are told apart by their addresses. -/
theorem issued_inj {db : Table} {as : List Action} {s : Server} (h : Reaches db as s)
    {x y : Solution} (hx : x ∈ issuedBy db as) (hy : y ∈ issuedBy db as) (heq : x.addr = y.addr) :
    x = y := List.inj_on_of_nodup_map (issuedBy_addrs h).1 hx hy heq

/-- `free` takes an object's address back when it is the first of its batch. -/
theorem base_iff {db : Table} {as : List Action} {s : Server} (h : Reaches db as s)
    {sln : Solution} (hsln : sln ∈ issuedBy db as) :
    (∃ b ∈ callocsBy db as, b.base = sln.addr) ↔ ∃ batch ∈ batches db as, batch.head? = some sln := by
  have hlaid := (reaches_arranged h).laid
  constructor
  · rintro ⟨b, hb, hbase⟩
    obtain ⟨batch, hbatch, hmem, b', hb', heq, hin⟩ := issued_array h hsln
    have hlen := hlaid.nonempty b hb
    obtain rfl := hlaid.unique hb hb' ⟨hbase.le, by omega⟩ hin
    refine ⟨batch, hbatch, ?_⟩
    cases batch with
    | nil => cases hmem
    | cons x rest =>
      obtain ⟨n, hn⟩ : ∃ n, b.len = n + 1 := ⟨b.len - 1, by omega⟩
      rw [hn, List.range'_succ, List.map_cons, List.cons.injEq] at heq
      have hissued : x ∈ issuedBy db as := (mem_issuedBy h).2 ⟨_, hbatch, List.mem_cons_self⟩
      rw [issued_inj h hissued hsln (heq.1.trans hbase)]
      rfl
  · rintro ⟨batch, hbatch, hhead⟩
    obtain ⟨b, hb, heq⟩ := (reaches_arranged h).filled batch hbatch
    have hlen := hlaid.nonempty b hb
    refine ⟨b, hb, ?_⟩
    have hfirst := congrArg List.head? heq
    rw [List.head?_map, hhead, List.head?_range', if_neg (by omega)] at hfirst
    exact (Option.some.inj hfirst).symm

/-! What has been freed. -/

theorem freedBy_perm {db : Table} {as : List Action} {s : Server} (h : Reaches db as s) :
    (freedBy db as).Perm (goneBy db as .released ++ goneBy db as .discarded) := by
  induction h with
  | nil => exact List.Perm.refl _
  | @snoc as a s s' hr hs ih =>
    rw [freedBy, outputs_snoc hr, goneBy, outputs_snoc hr, goneBy, outputs_snoc hr]
    refine (ih.append_right _).trans ?_
    rw [Server.frees, List.append_assoc, List.append_assoc]
    refine List.Perm.append_left _ ?_
    rw [← List.append_assoc, ← List.append_assoc]
    exact List.perm_append_comm.append_right _

theorem mem_freedBy {db : Table} {as : List Action} {s : Server} (h : Reaches db as s)
    {sln : Solution} :
    sln ∈ freedBy db as ↔ sln ∈ goneBy db as .released ∨ sln ∈ goneBy db as .discarded := by
  rw [(freedBy_perm h).mem_iff, List.mem_append]

section Freed

variable {db : Table} {as : List Action} {s s' : Server} {a : Action} {sln : Solution}

theorem freed_issued (h : Reaches db as s) (hfree : Along Server.step (.init db) as FreesUnlocked)
    (hsln : sln ∈ freedBy db as) : sln ∈ issuedBy db as := by
  rcases (mem_freedBy h).1 hsln with hgone | hgone <;>
    exact (reaches_accounts h hfree).gone_issued hgone

/-- What is held has not been freed. -/
theorem held_not_freed (h : Reaches db as s)
    (hfree : Along Server.step (.init db) as FreesUnlocked) {p : Place} (hsln : sln ∈ s.holds p) :
    sln.addr ∉ (freedBy db as).map Solution.addr := by
  intro hmem
  obtain ⟨x, hx, heq⟩ := List.mem_map.1 hmem
  have hapart := (reaches_accounts h hfree).not_gone hsln
  rcases (mem_freedBy h).1 hx with hgone | hgone
  · exact hapart .released (heq ▸ List.mem_map_of_mem hgone)
  · exact hapart .discarded (heq ▸ List.mem_map_of_mem hgone)

theorem step_frees (hr : Reaches db as s) (hlast : FreesUnlocked s a) (hs : s.step a = some s') :
    ((s.frees a).map Solution.addr).Nodup ∧ ∀ x ∈ s.frees a, ∃ p, x ∈ s.holds p := by
  have ht := reaches_tallied hr
  have hdeparts := step_departs ht.guarded ht.dispatched ht.unborn hlast hs
  refine ⟨?_, fun x hx => ?_⟩
  · rw [Server.frees, List.map_append]
    exact (hdeparts.exclusive.nodup .released).append (hdeparts.exclusive.nodup .discarded)
      (hdeparts.exclusive.apart .released .discarded (by simp))
  · rcases List.mem_append.1 hx with hx | hx
    · exact hdeparts.held .released x hx
    · exact hdeparts.held .discarded x hx

/-- An object that is being freed was held, so it was not freed before. -/
theorem frees_fresh (hr : Reaches db as s) (hfree : Along Server.step (.init db) as FreesUnlocked)
    (hlast : FreesUnlocked s a) (hs : s.step a = some s') (hsln : sln ∈ s.frees a) :
    sln ∈ issuedBy db as ∧ sln.addr ∉ (freedBy db as).map Solution.addr := by
  obtain ⟨p, hp⟩ := (step_frees hr hlast hs).2 sln hsln
  exact ⟨(reaches_accounts hr hfree).held_issued hp, held_not_freed hr hfree hp⟩

end Freed

/-- Frees of different addresses, one after the other. -/
theorem foldlM_solutionFree {slns : List Solution} {arrays arrays' : List SlnArray}
    (hnodup : (slns.map Solution.addr).Nodup) :
    slns.foldlM solutionFree arrays = some arrays' ↔
      (∀ sln ∈ slns, ∃ b ∈ arrays, b.base = sln.addr) ∧
        arrays' = arrays.filter fun b => b.base ∉ slns.map Solution.addr := by
  induction slns generalizing arrays with
  | nil => simp [eq_comm]
  | cons x slns ih =>
    rw [List.map_cons, List.nodup_cons] at hnodup
    rw [List.foldlM_cons, List.forall_mem_cons]
    by_cases hx : ∃ b ∈ arrays, b.base = x.addr
    · rw [solutionFree, if_pos hx, Option.bind_eq_bind, Option.bind_some, ih hnodup.2,
        List.filter_filter]
      refine and_congr ⟨fun h => ⟨hx, fun sln hsln => ?_⟩, fun h sln hsln => ?_⟩ ?_
      · obtain ⟨b, hb, hbase⟩ := h sln hsln
        exact ⟨b, List.mem_of_mem_filter hb, hbase⟩
      · obtain ⟨b, hb, hbase⟩ := h.2 sln hsln
        refine ⟨b, List.mem_filter.2 ⟨hb, ?_⟩, hbase⟩
        have hne : sln.addr ≠ x.addr := fun heq => hnodup.1 (heq ▸ List.mem_map_of_mem hsln)
        simpa [hbase] using hne
      · rw [List.filter_congr fun b _ => ?_]
        simp [Bool.and_comm]
    · rw [solutionFree, if_neg hx]
      exact iff_of_false (by simp) fun h => hx h.1.1

/-- The arrays that are left: those whose first address was not freed. -/
def leftBy (db : Table) (as : List Action) : List SlnArray :=
  (callocsBy db as).filter fun b => b.base ∉ (freedBy db as).map Solution.addr

theorem mem_leftBy {db : Table} {as : List Action} {b : SlnArray} :
    b ∈ leftBy db as ↔ b ∈ callocsBy db as ∧ b.base ∉ (freedBy db as).map Solution.addr := by
  simp [leftBy]

section Arrays

variable {db : Table} {as : List Action} {s s' : Server} {a : Action}

/-- A new array begins above everything that has been issued. -/
theorem callocs_above (hr : Reaches db as s) (hs : s.step a = some s') {b : SlnArray}
    (hb : b ∈ s.callocs a) {sln : Solution} (hsln : sln ∈ issuedBy db as) : sln.addr < b.base := by
  have hbase : b.base = s.nextAddr := by
    cases step_callocs hs with
    | none hcallocs => simp [hcallocs] at hb
    | array len _ hcallocs => simp_all
  rw [hbase]
  exact (issuedBy_addrs hr).2 sln hsln

theorem leftBy_snoc (hr : Reaches db as s) (hfree : Along Server.step (.init db) as FreesUnlocked)
    (hlast : FreesUnlocked s a) (hs : s.step a = some s') :
    leftBy db (as ++ [a]) =
      (leftBy db as).filter (fun b => b.base ∉ (s.frees a).map Solution.addr) ++ s.callocs a := by
  have hc : callocsBy db (as ++ [a]) = callocsBy db as ++ s.callocs a := outputs_snoc hr a
  have hg : freedBy db (as ++ [a]) = freedBy db as ++ s.frees a := outputs_snoc hr a
  have hnew : ∀ b ∈ s.callocs a, b.base ∉ (freedBy db as ++ s.frees a).map Solution.addr := by
    intro b hb hmem
    obtain ⟨sln, hsln, heq⟩ := List.mem_map.1 hmem
    have hissued : sln ∈ issuedBy db as := by
      rcases List.mem_append.1 hsln with hsln | hsln
      · exact freed_issued hr hfree hsln
      · exact (frees_fresh hr hfree hlast hs hsln).1
    exact (callocs_above hr hs hb hissued).ne heq
  rw [leftBy, hc, hg, List.filter_append, leftBy, List.filter_filter]
  congr 1
  · refine List.filter_congr fun b _ => ?_
    rw [Bool.eq_iff_iff]
    simp only [List.map_append, List.mem_append, decide_eq_true_eq, Bool.and_eq_true, not_or]
    exact And.comm
  · refine List.filter_eq_self.2 fun b hb => ?_
    simpa using hnew b hb

theorem Memory.step_some {m m' : Memory} : m.step a = some m' ↔
    m.server.step a = some m'.server ∧ ∃ arrays,
      (m.server.frees a).foldlM solutionFree m.arrays = some arrays ∧
        m'.arrays = arrays ++ m.server.callocs a := by
  obtain ⟨s', arrays'⟩ := m'
  unfold Memory.step
  split
  · rename_i s arrays hstep hfree
    simp [hstep, hfree, eq_comm]
  · rename_i hnone
    refine iff_of_false (by simp) ?_
    rintro ⟨hstep, arrays, hfree, -⟩
    exact hnone _ _ hstep hfree

/-- A run whose calls of `free` are all valid leaves the arrays that were not freed. -/
theorem memory_arrays {m : Memory} (h : Run Memory.step (.init db) as m)
    (hfree : Along Server.step (.init db) as FreesUnlocked) :
    Reaches db as m.server ∧ m.arrays = leftBy db as := by
  induction h with
  | nil => exact ⟨Run.nil, rfl⟩
  | @snoc as a m m' hr hs ih =>
    obtain ⟨hreach, harrays⟩ := ih hfree.left
    obtain ⟨hbefore, hlast⟩ := (along_snoc hreach).1 hfree
    obtain ⟨hstep, arrays, hfold, hafter⟩ := Memory.step_some.1 hs
    refine ⟨hreach.snoc hstep, ?_⟩
    rw [hafter, leftBy_snoc hreach hbefore hlast hstep, ← harrays]
    rw [((foldlM_solutionFree (step_frees hreach hlast hstep).1).1 hfold).2]

end Arrays

/-- The solution was the first one of the extraction it came with. -/
def CameFirst (db : Table) (as : List Action) (sln : Solution) : Prop :=
  ∃ batch ∈ batches db as, batch.head? = some sln

section First

variable {db : Table} {as : List Action} {s s' : Server} {a : Action}

/-- The batch of an object that is issued already is not the one of this step. -/
theorem cameFirst_snoc (hr : Reaches db as s) (hs : s.step a = some s') {sln : Solution}
    (hsln : sln ∈ issuedBy db as) : CameFirst db (as ++ [a]) sln ↔ CameFirst db as sln := by
  have hsln' : sln ∈ issuedBy db (as ++ [a]) := by
    rw [issuedBy, outputs_snoc hr]
    exact List.mem_append_left _ hsln
  rw [CameFirst, CameFirst, ← base_iff hr hsln, ← base_iff (hr.snoc hs) hsln', callocsBy,
    outputs_snoc hr]
  constructor
  · rintro ⟨b, hb, heq⟩
    rcases List.mem_append.1 hb with hb | hb
    · exact ⟨b, hb, heq⟩
    · exact absurd heq.symm (callocs_above hr hs hb hsln).ne
  · rintro ⟨b, hb, heq⟩
    exact ⟨b, List.mem_append_left _ hb, heq⟩

/-- The next frees are valid when each of them is of an array that is left. -/
theorem left_base_iff (hr : Reaches db as s) {sln : Solution} (hsln : sln ∈ issuedBy db as)
    (hfresh : sln.addr ∉ (freedBy db as).map Solution.addr) :
    (∃ b ∈ leftBy db as, b.base = sln.addr) ↔ CameFirst db as sln := by
  rw [CameFirst, ← base_iff hr hsln]
  refine ⟨fun ⟨b, hb, hbase⟩ => ⟨b, (mem_leftBy.1 hb).1, hbase⟩, fun ⟨b, hb, hbase⟩ => ?_⟩
  exact ⟨b, mem_leftBy.2 ⟨hb, by rwa [hbase]⟩, hbase⟩

end First

/-- Every freed object was the first of the batch it came in. -/
def FreesFirst (db : Table) (as : List Action) : Prop := ∀ sln ∈ freedBy db as, CameFirst db as sln

/-- Every `free` of a run is valid exactly when every object that was freed came first in
its batch. -/
theorem frees_valid_iff {db : Table} {as : List Action} {s : Server} (h : Reaches db as s)
    (hfree : Along Server.step (.init db) as FreesUnlocked) :
    (∃ arrays, Run Memory.step (.init db) as ⟨s, arrays⟩) ↔ FreesFirst db as := by
  induction h with
  | nil => exact iff_of_true ⟨[], Run.nil⟩ (by simp [FreesFirst, freedBy, outputs])
  | @snoc as a s s' hr hs ih =>
    obtain ⟨hbefore, hlast⟩ := (along_snoc hr).1 hfree
    have hfresh : ∀ sln ∈ s.frees a, sln ∈ issuedBy db as ∧
        sln.addr ∉ (freedBy db as).map Solution.addr :=
      fun sln hsln => frees_fresh hr hbefore hlast hs hsln
    have hfirst : FreesFirst db (as ++ [a]) ↔
        FreesFirst db as ∧ ∀ sln ∈ s.frees a, CameFirst db as sln := by
      rw [FreesFirst, freedBy, outputs_snoc hr, List.forall_mem_append]
      refine and_congr (forall₂_congr fun sln hsln => ?_) (forall₂_congr fun sln hsln => ?_)
      · exact cameFirst_snoc hr hs (freed_issued hr hbefore hsln)
      · exact cameFirst_snoc hr hs (hfresh sln hsln).1
    rw [hfirst, ← ih hbefore]
    constructor
    · rintro ⟨arrays, hrun⟩
      obtain ⟨⟨s₁, arrays₁⟩, hrun₁, hstep⟩ := Run.snoc_iff.1 hrun
      obtain ⟨hreach, harrays⟩ := memory_arrays hrun₁ hbefore
      dsimp only at hreach harrays
      obtain rfl : s = s₁ := hr.unique hreach
      refine ⟨⟨arrays₁, hrun₁⟩, fun sln hsln => ?_⟩
      obtain ⟨-, arrays₂, hfold, -⟩ := Memory.step_some.1 hstep
      have hbase := ((foldlM_solutionFree (step_frees hr hlast hs).1).1 hfold).1 sln hsln
      dsimp only at hbase
      rw [harrays] at hbase
      exact (left_base_iff hr (hfresh sln hsln).1 (hfresh sln hsln).2).1 hbase
    · rintro ⟨⟨arrays, hrun⟩, hnow⟩
      obtain ⟨-, harrays⟩ := memory_arrays hrun hbefore
      dsimp only at harrays
      refine ⟨_, hrun.snoc (Memory.step_some.2 ⟨hs, _,
        (foldlM_solutionFree (step_frees hr hlast hs).1).2 ⟨fun sln hsln => ?_, rfl⟩, rfl⟩)⟩
      dsimp only
      rw [harrays]
      exact (left_base_iff hr (hfresh sln hsln).1 (hfresh sln hsln).2).2 (hnow sln hsln)

/-- Every object that is still held somewhere lies in an array that is allocated. -/
def HeldLive (s : Server) (arrays : List SlnArray) : Prop :=
  ∀ p, ∀ sln ∈ s.holds p, ∃ b ∈ arrays, b.contains sln

/-- Once an object was freed, no other one of its batch is held. -/
def FreedLast (db : Table) (as : List Action) (s : Server) : Prop :=
  ∀ batch ∈ batches db as, ∀ x ∈ batch, x ∈ freedBy db as → ∀ y ∈ batch, ∀ p, y ∉ s.holds p

/-- When all calls of `free` were valid, what is held is allocated exactly when every
batch with a freed object has nothing held any more. -/
theorem held_live_iff {db : Table} {as : List Action} {m : Memory}
    (h : Run Memory.step (.init db) as m) (hfree : Along Server.step (.init db) as FreesUnlocked) :
    HeldLive m.server m.arrays ↔ FreedLast db as m.server := by
  obtain ⟨hreach, harrays⟩ := memory_arrays h hfree
  have hfirst : FreesFirst db as := (frees_valid_iff hreach hfree).1 ⟨m.arrays, h⟩
  have haccounts := reaches_accounts hreach hfree
  have hlaid := (reaches_arranged hreach).laid
  constructor
  · intro hlive batch hbatch x hx hfreed y hy p hheld
    obtain ⟨b, hb, hin⟩ := hlive p y hheld
    rw [harrays, mem_leftBy] at hb
    obtain ⟨b', hb', heq⟩ := (reaches_arranged hreach).filled batch hbatch
    have hfill : ∀ z ∈ batch, b'.contains z := by
      intro z hz
      have haddr := List.mem_map_of_mem (f := Solution.addr) hz
      rwa [heq, List.mem_range'_1] at haddr
    -- the array of the batch is the one whose first address was freed
    obtain ⟨b'', hb'', hbase⟩ :=
      (base_iff hreach (freed_issued hreach hfree hfreed)).2 (hfirst x hfreed)
    have hlen := hlaid.nonempty b'' hb''
    obtain rfl := hlaid.unique hb' hb'' (hfill x hx) ⟨hbase.le, by omega⟩
    obtain rfl := hlaid.unique hb.1 hb' hin (hfill y hy)
    exact hb.2 (by rw [hbase]; exact List.mem_map_of_mem hfreed)
  · intro hlast p y hheld
    obtain ⟨batch, hbatch, hy, b, hb, heq, hin⟩ :=
      issued_array hreach (haccounts.held_issued hheld)
    refine ⟨b, ?_, hin⟩
    rw [harrays, mem_leftBy]
    refine ⟨hb, fun hmem => ?_⟩
    obtain ⟨x, hfreed, hbase⟩ := List.mem_map.1 hmem
    have hlen := hlaid.nonempty b hb
    have hissued := freed_issued hreach hfree hfreed
    have hx : x ∈ batch := by
      obtain ⟨batch', hbatch', hx', b', hb', heq', hin'⟩ := issued_array hreach hissued
      obtain rfl := hlaid.unique hb hb' ⟨hbase.ge, by omega⟩ hin'
      have haddr : x.addr ∈ batch.map Solution.addr := by
        rw [heq, ← heq']
        exact List.mem_map_of_mem hx'
      obtain ⟨z, hz, hzx⟩ := List.mem_map.1 haddr
      rwa [← issued_inj hreach ((mem_issuedBy hreach).2 ⟨batch, hbatch, hz⟩) hissued hzx]
    exact hlast batch hbatch x hx hfreed y hy p hheld

end JudgeServer
