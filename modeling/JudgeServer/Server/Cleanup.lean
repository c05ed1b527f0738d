import JudgeServer.Server.Freed
import JudgeServer.Server.Memory

/-! The end of the server, and the solutions over its whole life. `cleanup` runs when all
threads have returned, and frees the clients that are left with everything they hold. -/

namespace JudgeServer

open Transition Placement

/-- `cleanup`, which takes the clients in the order of their insertion. -/
def Server.cleanup (s : Server) (order : List ClientRef) : List Solution :=
  order.flatMap fun c => clientFree (s.clients c)

/-- All threads of the pool have returned. -/
structure Stopped (s : Server) : Prop where
  poll : s.poll = .done
  workers : ∀ t, s.workers t = .idle ∨ s.workers t = .done ∨ ∃ me e, s.workers t = .loop me ⟨.ended, e⟩

theorem stopped_unlocked {s : Server} (hg : Guarded s) (h : Stopped s) (c : ClientRef) :
    (s.clients c).locked = false := by
  by_contra hlocked
  obtain ⟨t, ht⟩ := (hg.locked_iff c).1 (by simpa using hlocked)
  rcases h.workers t with hw | hw | ⟨me, e, hw⟩ <;> (rw [hw] at ht; cases ht)

/-- At the end every object that is not gone is with a client. -/
theorem stopped_held {db : Table} {as : List Action} {s : Server} (h : Reaches db as s)
    (hstop : Stopped s) {p : Place} {sln : Solution} (hp : sln ∈ s.holds p) :
    ∃ c, p = .queue c ∨ p = .slot c := by
  have hg := (reaches_tallied h).guarded
  cases p with
  | todo => simp [Server.holds, hstop.poll] at hp
  | hand who =>
    have hnone : s.calls who = none := by
      cases who with
      | poll => exact (reaches_polled h).no_call hstop.poll (by simp)
      | worker t =>
        apply hg.no_call
        rcases hstop.workers t with hw | hw | ⟨me, e, hw⟩ <;> rw [hw] <;> rfl
    simp [Server.holds, hnone] at hp
  | queue c => exact ⟨c, Or.inl rfl⟩
  | slot c => exact ⟨c, Or.inr rfl⟩

theorem mem_clientFree {s : Server} {c : ClientRef} (hfree : (s.clients c).locked = false)
    {sln : Solution} :
    sln ∈ clientFree (s.clients c) ↔ sln ∈ s.holds (.queue c) ∨ sln ∈ s.holds (.slot c) := by
  simp [clientFree, Server.holds, hfree]

theorem cleanup_addrs {s : Server} (hg : Guarded s) (h : Stopped s) (order : List ClientRef) :
    (s.cleanup order).map Solution.addr =
      (order.flatMap clientPlaces).flatMap fun r => (s.holds r).map Solution.addr := by
  rw [Server.cleanup, List.map_flatMap, List.flatMap_assoc]
  apply List.flatMap_congr
  intro c _
  simp [clientFree, clientPlaces, Server.holds, stopped_unlocked hg h c]

section Ended

variable {db : Table} {as : List Action} {s : Server} {order : List ClientRef}

/-- What `cleanup` frees was held, each object once, and none of it was freed before. -/
theorem cleanup_fresh (h : Reaches db as s)
    (hfree : Along Server.step (.init db) as FreesUnlocked) (hstop : Stopped s)
    (horder : order.Perm s.clientsMap) :
    ((s.cleanup order).map Solution.addr).Nodup ∧ ∀ sln ∈ s.cleanup order,
      sln ∈ issuedBy db as ∧ sln.addr ∉ (freedBy db as).map Solution.addr := by
  have ht := reaches_tallied h
  refine ⟨?_, fun sln hsln => ?_⟩
  · rw [cleanup_addrs ht.guarded hstop]
    exact ht.dispatched.exclusive.nodup_flatMap
      (clientPlaces_nodup (horder.nodup_iff.2 ht.guarded.nodup))
  · obtain ⟨c, -, hc⟩ := List.mem_flatMap.1 hsln
    have hheld : ∃ p, sln ∈ s.holds p := by
      rcases (mem_clientFree (stopped_unlocked ht.guarded hstop c)).1 hc with hq | hq
      · exact ⟨_, hq⟩
      · exact ⟨_, hq⟩
    obtain ⟨p, hp⟩ := hheld
    exact ⟨(reaches_accounts h hfree).held_issued hp, held_not_freed h hfree hp⟩

/-- After valid frees, those of `cleanup` are valid when each is of the first of a batch. -/
theorem cleanup_valid_iff {arrays : List SlnArray}
    (hrun : Run Memory.step (.init db) as ⟨s, arrays⟩)
    (hfree : Along Server.step (.init db) as FreesUnlocked) (hstop : Stopped s)
    (horder : order.Perm s.clientsMap) :
    ((s.cleanup order).foldlM solutionFree arrays).isSome ↔
      ∀ sln ∈ s.cleanup order, CameFirst db as sln := by
  obtain ⟨hreach, harrays⟩ := memory_arrays hrun hfree
  dsimp only at hreach harrays
  obtain ⟨hnodup, hfresh⟩ := cleanup_fresh hreach hfree hstop horder
  rw [Option.isSome_iff_exists]
  constructor
  · rintro ⟨arrays', hfold⟩ sln hsln
    have hbase := ((foldlM_solutionFree hnodup).1 hfold).1 sln hsln
    rw [harrays] at hbase
    exact (left_base_iff hreach (hfresh sln hsln).1 (hfresh sln hsln).2).1 hbase
  · intro hfirst
    refine ⟨_, (foldlM_solutionFree hnodup).2 ⟨fun sln hsln => ?_, rfl⟩⟩
    rw [harrays]
    exact (left_base_iff hreach (hfresh sln hsln).1 (hfresh sln hsln).2).2 (hfirst sln hsln)

end Ended

/-- All calls of `free` in a run are valid and nothing that is still held has been freed,
exactly when every freed object was the first of its batch and the last one of it that was
held; and those of `cleanup` are valid too, exactly when they also free the first ones only. -/
theorem memory_safe_iff (db : Table) (as : List Action) (s : Server) (h : Reaches db as s)
    (hfree : Along Server.step (.init db) as FreesUnlocked) :
    ((∃ arrays, Run Memory.step (.init db) as ⟨s, arrays⟩ ∧ HeldLive s arrays) ↔
      FreesFirst db as ∧ FreedLast db as s) ∧
    ∀ order : List ClientRef, Stopped s → order.Perm s.clientsMap →
      ((∃ arrays, Run Memory.step (.init db) as ⟨s, arrays⟩ ∧
          ((s.cleanup order).foldlM solutionFree arrays).isSome) ↔
        ∀ sln ∈ freedBy db as ++ s.cleanup order, CameFirst db as sln) := by
  refine ⟨?_, fun order hstop horder => ?_⟩
  · rw [← frees_valid_iff h hfree]
    constructor
    · rintro ⟨arrays, hrun, hlive⟩
      exact ⟨⟨arrays, hrun⟩, (held_live_iff hrun hfree).1 hlive⟩
    · rintro ⟨⟨arrays, hrun⟩, hlast⟩
      exact ⟨arrays, hrun, (held_live_iff hrun hfree).2 hlast⟩
  · rw [List.forall_mem_append]
    constructor
    · rintro ⟨arrays, hrun, hclean⟩
      exact ⟨(frees_valid_iff h hfree).1 ⟨arrays, hrun⟩,
        (cleanup_valid_iff hrun hfree hstop horder).1 hclean⟩
    · rintro ⟨hfirst, hclean⟩
      obtain ⟨arrays, hrun⟩ := (frees_valid_iff h hfree).2 hfirst
      exact ⟨arrays, hrun, (cleanup_valid_iff hrun hfree hstop horder).2 hclean⟩

/-- Of an extraction of one row every solution is the first. -/
theorem cameFirst_of_single {db : Table} {as : List Action} {s : Server} (h : Reaches db as s)
    (hsingle : ∀ batch ∈ batches db as, batch.length ≤ 1) {sln : Solution}
    (hsln : sln ∈ issuedBy db as) :
    CameFirst db as sln ∧ ∀ batch ∈ batches db as, sln ∈ batch → batch = [sln] := by
  have hsame : ∀ batch ∈ batches db as, sln ∈ batch → batch = [sln] := by
    intro batch hbatch hmem
    obtain ⟨y, rfl⟩ := List.length_eq_one_iff.1
      (le_antisymm (hsingle batch hbatch) (List.length_pos_of_mem hmem))
    rw [List.mem_singleton.1 hmem]
  obtain ⟨batch, hbatch, hmem⟩ := (mem_issuedBy h).1 hsln
  exact ⟨⟨batch, hbatch, by rw [hsame batch hbatch hmem]; rfl⟩, hsame⟩

theorem singles_first_last {db : Table} {as : List Action} {s : Server} (h : Reaches db as s)
    (hfree : Along Server.step (.init db) as FreesUnlocked)
    (hsingle : ∀ batch ∈ batches db as, batch.length ≤ 1) :
    FreesFirst db as ∧ FreedLast db as s := by
  have hsame : ∀ sln ∈ freedBy db as, CameFirst db as sln ∧
      ∀ batch ∈ batches db as, sln ∈ batch → batch = [sln] :=
    fun sln hsln => cameFirst_of_single h hsingle (freed_issued h hfree hsln)
  refine ⟨fun sln hsln => (hsame sln hsln).1, fun batch hbatch x hx hfreed y hy p hheld => ?_⟩
  rw [(hsame x hfreed).2 batch hbatch hx, List.mem_singleton] at hy
  subst hy
  exact held_not_freed h hfree hheld (List.mem_map_of_mem hfreed)

/-- Extractions of single rows are safe, whatever the clients do. -/
theorem singles_safe (db : Table) (as : List Action) (s : Server) (h : Reaches db as s)
    (hfree : Along Server.step (.init db) as FreesUnlocked)
    (hsingle : ∀ batch ∈ batches db as, batch.length ≤ 1) :
    ∃ arrays, Run Memory.step (.init db) as ⟨s, arrays⟩ ∧ HeldLive s arrays ∧
      ∀ order : List ClientRef, Stopped s → order.Perm s.clientsMap →
        ((s.cleanup order).foldlM solutionFree arrays).isSome := by
  obtain ⟨hfirst, hlast⟩ := singles_first_last h hfree hsingle
  obtain ⟨arrays, hrun⟩ := (frees_valid_iff h hfree).2 hfirst
  refine ⟨arrays, hrun, (held_live_iff hrun hfree).2 hlast, fun order hstop horder => ?_⟩
  refine (cleanup_valid_iff hrun hfree hstop horder).2 fun sln hsln => ?_
  exact (cameFirst_of_single h hsingle ((cleanup_fresh h hfree hstop horder).2 sln hsln).1).1

/-- When the server ends, no object has been freed twice, and the ones that are never freed
are those that were overwritten or refused. -/
theorem freed_or_leaked (db : Table) (as : List Action) (s : Server) (order : List ClientRef)
    (h : Reaches db as s) (hfree : Along Server.step (.init db) as FreesUnlocked)
    (hsafe : Untouched db as) (hstop : Stopped s) (horder : order.Perm s.clientsMap) :
    ((freedBy db as ++ s.cleanup order).map Solution.addr).Nodup ∧
      ∀ sln ∈ issuedBy db as, (sln ∉ freedBy db as ++ s.cleanup order ↔
        sln ∈ goneBy db as .overwritten ∨ sln ∈ goneBy db as .refused) := by
  have ht := reaches_tallied h
  have haccounts := reaches_accounts h hfree
  obtain ⟨hclean, hfresh⟩ := cleanup_fresh h hfree hstop horder
  -- a client that is left in no map has been freed, and is empty
  have hregistered : ∀ c sln, sln ∈ clientFree (s.clients c) → c ∈ s.clientsMap := by
    intro c sln hsln
    have hnone : ¬ ((s.clients c).solutionsQueue = [] ∧ (s.clients c).checkingSolution = none) := by
      rintro ⟨hqueue, hslot⟩
      simp [clientFree, hqueue, hslot] at hsln
    have hlt : c < s.nextClient := by
      by_contra hge
      exact hnone (ht.unborn.empty c (not_lt.1 hge))
    rcases created_cases h hlt with hmem | ⟨t, hdisposes⟩ | hfreed
    · exact hmem
    · rcases hstop.workers t with hw | hw | ⟨me, e, hw⟩ <;> (rw [hw] at hdisposes; cases hdisposes)
    · exact absurd (freed_empty h hsafe hfreed).2 hnone
  refine ⟨?_, fun sln hsln => ?_⟩
  · rw [List.map_append]
    refine List.Nodup.append ?_ hclean fun x hx hx' => ?_
    · rw [((freedBy_perm h).map Solution.addr).nodup_iff, List.map_append]
      exact (haccounts.exclusive.nodup (.inr .released)).append
        (haccounts.exclusive.nodup (.inr .discarded))
        (haccounts.exclusive.apart (.inr .released) (.inr .discarded) (by simp))
    · obtain ⟨sln, hsln, rfl⟩ := List.mem_map.1 hx'
      exact (hfresh sln hsln).2 hx
  · obtain ⟨q, hq, honly⟩ := haccounts.once hsln
    rw [List.mem_append, mem_freedBy h]
    constructor
    · intro hkept
      rw [not_or, not_or] at hkept
      obtain ⟨⟨hreleased, hdiscarded⟩, hcleanup⟩ := hkept
      cases q with
      | inr e =>
        cases e with
        | released => exact absurd hq hreleased
        | overwritten => exact Or.inl hq
        | refused => exact Or.inr hq
        | discarded => exact absurd hq hdiscarded
      | inl p =>
        obtain ⟨c, hc⟩ := stopped_held h hstop hq
        have hfound : sln ∈ clientFree (s.clients c) := by
          rw [mem_clientFree (stopped_unlocked ht.guarded hstop c)]
          rcases hc with rfl | rfl
          · exact Or.inl hq
          · exact Or.inr hq
        refine absurd (List.mem_flatMap.2 ⟨c, ?_, hfound⟩) hcleanup
        exact horder.mem_iff.2 (hregistered c sln hfound)
    · -- the object has left by one exit only
      intro hgone
      obtain ⟨e, he, hmem⟩ : ∃ e, (e = .overwritten ∨ e = .refused) ∧ sln ∈ goneBy db as e := by
        rcases hgone with hgone | hgone
        · exact ⟨_, Or.inl rfl, hgone⟩
        · exact ⟨_, Or.inr rfl, hgone⟩
      have hq' : q = .inr e := (honly (.inr e) hmem).symm
      have hother : ∀ r, r ≠ .inr e → sln ∉ ledger s.holds (goneBy db as) r := by
        intro r hr hmem'
        exact hr ((honly r hmem').trans hq')
      rw [not_or, not_or]
      refine ⟨⟨hother (.inr .released) ?_, hother (.inr .discarded) ?_⟩, fun hcleanup => ?_⟩
      · rcases he with rfl | rfl <;> simp
      · rcases he with rfl | rfl <;> simp
      · obtain ⟨c, -, hc⟩ := List.mem_flatMap.1 hcleanup
        rcases (mem_clientFree (stopped_unlocked ht.guarded hstop c)).1 hc with hqueue | hslot
        · exact hother (.inl (.queue c)) (by simp) hqueue
        · exact hother (.inl (.slot c)) (by simp) hslot

/-- A solution comes to a client that has been drained, and is freed with it; another client
is registered when the server stops. -/
def stoppedRun : List Action :=
  leavingRun ++ [.append .poll (decodeRow 0 (sampleRow 1)) 0] ++ joining 1 1 ++
    [.stop, .loop 1 1 ⟨.top, .other 0⟩ (.running false), .again, .check, .closeDb]

theorem stoppedRun_ends : ∃ s, Reaches oneNewRow (stoppedRun ++ [.free 0 0 0]) s ∧ Stopped s ∧
    s.clientsMap = [1] ∧ Along Server.step (.init oneNewRow) (stoppedRun ++ [.free 0 0 0]) FreesUnlocked ∧
    Untouched oneNewRow (stoppedRun ++ [.free 0 0 0]) := by
  obtain ⟨s, s', hbefore, hlast, hfree, hpoll, hfirst, hsecond, hmap⟩ : ∃ s s',
      Reaches oneNewRow stoppedRun s ∧ s.step (.free 0 0 0) = some s' ∧
      (s.clients 0).locked = false ∧ s'.poll = .done ∧ s'.workers 0 = .done ∧
      s'.workers 1 = .loop 1 ⟨.ended, .other 0⟩ ∧ s'.clientsMap = [1] :=
    ⟨_, _, Run.iff_foldlM.2 rfl, rfl, rfl, rfl, rfl, rfl, rfl⟩
  have hrun : Reaches oneNewRow (stoppedRun ++ [.free 0 0 0]) s' := hbefore.snoc hlast
  refine ⟨s', hrun, ⟨hpoll, fun t => ?_⟩, hmap, ?_, ?_⟩
  · by_cases hzero : t = 0
    · rw [hzero, hfirst]
      exact Or.inr (Or.inl rfl)
    by_cases hone : t = 1
    · rw [hone, hsecond]
      exact Or.inr (Or.inr ⟨1, _, rfl⟩)
    refine Or.inl (workers_run hrun fun a ha hthread => ?_)
    have hthreads : ∀ a ∈ stoppedRun ++ [.free 0 0 0],
        Server.thread a = none ∨ Server.thread a = some 0 ∨ Server.thread a = some 1 := by decide
    rcases hthreads a ha with h | h | h <;> rw [h] at hthread
    · cases hthread
    · exact hzero (Option.some.inj hthread).symm
    · exact hone (Option.some.inj hthread).symm
  · rw [along_snoc hbefore]
    refine ⟨along_of_forall fun a ha s => ?_, hfree⟩
    fin_cases ha <;> trivial
  · rw [untouched_snoc hbefore]
    exact ⟨untouched_of_none rfl, fun c _ => List.not_mem_nil⟩

theorem memory_safe_iff_stopped : ∃ s, Reaches oneNewRow (stoppedRun ++ [.free 0 0 0]) s ∧
    Stopped s ∧ (∃ arrays, Run Memory.step (.init oneNewRow) (stoppedRun ++ [.free 0 0 0]) ⟨s, arrays⟩ ∧
      ((s.cleanup [1]).foldlM solutionFree arrays).isSome) := by
  obtain ⟨s, hrun, hstop, hmap, hfree, -⟩ := stoppedRun_ends
  refine ⟨s, hrun, hstop, ((memory_safe_iff oneNewRow _ s hrun hfree).2 [1] hstop (by rw [hmap])).2 ?_⟩
  have hbatches : batches oneNewRow (stoppedRun ++ [.free 0 0 0]) = [[decodeRow 0 (sampleRow 1)]] := rfl
  have hissued : issuedBy oneNewRow (stoppedRun ++ [.free 0 0 0]) = [decodeRow 0 (sampleRow 1)] := rfl
  intro sln hsln
  have hsln : sln ∈ issuedBy oneNewRow (stoppedRun ++ [.free 0 0 0]) := by
    rcases List.mem_append.1 hsln with hsln | hsln
    · exact freed_issued hrun hfree hsln
    · exact ((cleanup_fresh hrun hfree hstop (by rw [hmap])).2 sln hsln).1
  rw [hissued, List.mem_singleton] at hsln
  exact ⟨_, by rw [hbatches]; exact List.mem_singleton_self _, by rw [hsln]; rfl⟩

theorem singles_safe_stopped : ∃ s, Reaches oneNewRow (stoppedRun ++ [.free 0 0 0]) s ∧
    ∃ arrays, Run Memory.step (.init oneNewRow) (stoppedRun ++ [.free 0 0 0]) ⟨s, arrays⟩ ∧
      HeldLive s arrays := by
  obtain ⟨s, hrun, -, -, hfree, -⟩ := stoppedRun_ends
  have hbatches : batches oneNewRow (stoppedRun ++ [.free 0 0 0]) = [[decodeRow 0 (sampleRow 1)]] := rfl
  obtain ⟨arrays, hmem, hlive, -⟩ := singles_safe oneNewRow (stoppedRun ++ [.free 0 0 0]) s hrun hfree
    (by simp [hbatches])
  exact ⟨s, hrun, arrays, hmem, hlive⟩

theorem freed_or_leaked_stopped : ∃ s, Reaches oneNewRow (stoppedRun ++ [.free 0 0 0]) s ∧
    Stopped s ∧ (freedBy oneNewRow (stoppedRun ++ [.free 0 0 0])).map Solution.id = [1] ∧
    ∀ sln ∈ issuedBy oneNewRow (stoppedRun ++ [.free 0 0 0]),
      (sln ∉ freedBy oneNewRow (stoppedRun ++ [.free 0 0 0]) ++ s.cleanup [1] ↔
        sln ∈ goneBy oneNewRow (stoppedRun ++ [.free 0 0 0]) .overwritten ∨
          sln ∈ goneBy oneNewRow (stoppedRun ++ [.free 0 0 0]) .refused) := by
  obtain ⟨s, hrun, hstop, hmap, hfree, hsafe⟩ := stoppedRun_ends
  exact ⟨s, hrun, hstop, rfl,
    (freed_or_leaked oneNewRow _ s [1] hrun hfree hsafe hstop (by rw [hmap])).2⟩

end JudgeServer
