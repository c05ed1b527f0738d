import JudgeServer.Client.Outgoing
import JudgeServer.Server.ClientView
import JudgeServer.Server.Provenance

/-! From the table to the judges. What a client finds on its connection are packets of
solutions that were pushed to it, in this order and each once; every one of them was
decoded from a row as it was submitted. -/

namespace JudgeServer

open Transition Codec

/-- What is in the row was submitted, up to the flag and the verdict. -/
def Original (db : Table) (as : List Action) (r : Row) : Prop :=
  ∃ r₀ ∈ originals db as, r₀.SameSubmission r

/-- The object was decoded from such a row. -/
def Extracted (db : Table) (as : List Action) (sln : Solution) : Prop :=
  ∃ addr r, Original db as r ∧ sln = decodeRow addr r

/-- The pushes to client `c`. -/
def pushedTo (c : ClientRef) (as : List Action) : List Solution :=
  as.filterMap fun
    | .append _ sln d => if d = c then some sln else none
    | _ => none

/-- What the thread of client `c` has taken from its queue. -/
def takenBy (db : Table) (c : ClientRef) (as : List Action) : List Solution :=
  outputs Server.step (Server.putsOut c takes) (.init db) as

/-- In every state of the run the objects freed so far were the first ones of their
batches, and no other object of such a batch is still held. -/
def BatchesKept (db : Table) (as : List Action) : Prop :=
  ∀ pre post s, as = pre ++ post → Reaches db pre s → FreesFirst db pre ∧ FreedLast db pre s

/-- The solution waits for the client, is outstanding or is being sent to it. -/
def Server.Serving (s : Server) (c : ClientRef) (sln : Solution) : Prop :=
  sln ∈ (s.clients c).solutionsQueue ∨ (s.clients c).checkingSolution = some sln ∨
    ∃ t e, s.workers t = .loop c ⟨.sending sln, e⟩

/-- What a client is served: `live` in every state of the run, `pieces` whatever happens on
the connection, `read` where no send fails after the socket has accepted bytes. -/
structure Served (db : Table) (as : List Action) (s : Server) (c : ClientRef) : Prop where
  live : ∀ pre post t, as = pre ++ post → Reaches db pre t → c < t.nextClient →
    ∃ arrays, Run Memory.step (.init db) pre ⟨t, arrays⟩ ∧
      ∀ sln, t.Serving c sln → ∃ b ∈ arrays, b.contains sln
  inOrder : takenBy db c as ++ (s.clients c).solutionsQueue = pushedTo c as
  once : ((pushedTo c as).map Solution.addr).Nodup
  genuine : ∀ sln ∈ pushedTo c as, Extracted db as sln
  pieces : ∃ ps : List (Solution × ℕ), (∀ p ∈ ps, p.1 ∈ takenBy db c as) ∧
    writtenTo db c as = ps.flatMap fun p => (solutionPacket p.1).take p.2
  read : Along Server.step (.init db) as (Server.Meets c LastIfAccepted) →
    (∀ row ∈ originals db as, row.source.length ≤ 65521) →
      ∀ t l, s.workers t = .loop c l → l.pc ≠ .removing → (∀ sln, l.pc ≠ .sending sln) →
        decodeStream (writtenTo db c as) = some ((takenBy db c as).map Solution.submission)

variable {db : Table} {as : List Action} {s s' : Server} {a : Action} {c : ClientRef}

/-! Where the objects come from. -/

theorem Original.snoc {r : Row} (h : Original db as r) (a : Action) : Original db (as ++ [a]) r := by
  obtain ⟨r₀, hmem, hsame⟩ := h
  exact ⟨r₀, originals_snoc hmem a, hsame⟩

/-- Every version of every row of the table. -/
theorem reaches_original (h : Reaches db as s) : ∀ t ∈ s.db.tuples, t.Every (Original db as) := by
  induction h with
  | nil => exact fun t ht => (originals_init ht).imp fun r hr => ⟨r, hr, .refl r⟩
  | @snoc as a s s' hr hs ih =>
    refine rows_step hs (fun t ht => (ih t ht).imp fun r hold => hold.snoc a) ?_ ?_ ?_
    · rintro r ⟨r₀, hmem, hsame⟩
      exact ⟨r₀, hmem, hsame.setChecking⟩
    · rintro accepted text r - ⟨r₀, hmem, hsame⟩
      exact ⟨r₀, hmem, hsame.postResult accepted text⟩
    · rintro row rfl
      exact ⟨row, by simp [originals, submittedBy], .refl row⟩

theorem Extracted.snoc {sln : Solution} (h : Extracted db as sln) (a : Action) :
    Extracted db (as ++ [a]) sln := by
  obtain ⟨addr, r, hr, rfl⟩ := h
  exact ⟨addr, r, hr.snoc a, rfl⟩

/-- The rows that the extraction holds. -/
def ExtractPc.rows : ExtractPc → List Row
  | .select => []
  | .start rows | .updates rows _ | .rollback rows | .ret _ rows => rows

theorem ExtractPc.next_rows {ok : Bool} {view : Table} {e : ExtractPc} {r : Row}
    (h : r ∈ (e.next ok view).rows) : r ∈ e.rows ∨ e = .select ∧ r ∈ view.newRows := by
  cases e with
  | select =>
    right
    simp only [ExtractPc.next] at h
    split_ifs at h <;> first | exact ⟨rfl, h⟩ | cases h
  | start rows =>
    left
    cases ok <;> exact h
  | updates rows todo =>
    left
    cases todo <;> cases ok <;> exact h
  | rollback rows | ret code rows => exact Or.inl h

theorem decodeRows_row {base : ℕ} {rows : List Row} {sln : Solution}
    (h : sln ∈ decodeRows base rows) : ∃ addr, ∃ r ∈ rows, sln = decodeRow addr r := by
  induction rows generalizing base with
  | nil => cases h
  | cons row rows ih =>
    rcases List.mem_cons.1 h with rfl | hrest
    · exact ⟨base, row, List.mem_cons_self, rfl⟩
    · obtain ⟨addr, r, hr, heq⟩ := ih hrest
      exact ⟨addr, r, List.mem_cons_of_mem row hr, heq⟩

/-- The polling thread holds rows of the table. -/
def HoldsRows (db : Table) (as : List Action) (s : Server) : Prop :=
  ∀ e, s.poll = .extract e → ∀ r ∈ e.rows, Original db as r

/-- A query finds rows of the table, or the rows found before. -/
theorem next_original (hr : Reaches db as s) (h : HoldsRows db as s) {e : ExtractPc} {stmt : Stmt}
    {ok : Bool} (hpoll : s.poll = .extract e) (hstmt : e.stmt = some stmt) {r : Row}
    (hmem : r ∈ (e.next (ok && s.conn = .open) (s.query stmt ok).db).rows) : Original db as r := by
  rcases ExtractPc.next_rows hmem with hold | ⟨rfl, hnew⟩
  · exact h e hpoll r hold
  · obtain rfl := Option.some.inj hstmt
    have hdb : (s.query .selectNew ok).db = s.db := by
      simp only [Server.query, Table.exec, ite_self]
    rw [hdb] at hnew
    obtain ⟨t, ht, rfl, -⟩ := Table.mem_newRows.1 hnew
    exact (reaches_original hr t ht).2

theorem HoldsRows.step (h : HoldsRows db as s) (hr : Reaches db as s) (hs : s.step a = some s') :
    HoldsRows db (as ++ [a]) s' := by
  intro e he r hmem
  suffices hold : Original db as r from hold.snoc a
  obtain ⟨hen, rfl⟩ := Server.step_some.1 hs
  cases a with
  | query e₀ ok =>
    obtain ⟨stmt, hstmt, heq⟩ := Server.next_query hen
    rw [heq] at he
    unfold Server.afterQuery at he
    split at he
    · dsimp only at he
      split_ifs at he
    · obtain rfl := PollPc.extract.inj he
      exact next_original hr h hen.1 hstmt hmem
  | lockDb =>
    obtain rfl := PollPc.extract.inj he
    cases hmem
  | initDb ok => cases ok <;> cases he
  | check =>
    simp only [Server.next] at he
    split_ifs at he
  | dispatch | again | closeDb => cases he
  | loop t me l ev =>
    obtain ⟨d, l', -, heq⟩ := Server.next_loop hen
    rw [heq] at he
    refine h e ?_ r hmem
    rw [← s.postEffect_poll l ev]
    exact he
  | submit | find | lock | lookup | choose =>
    simp only [Server.next] at he
    split at he <;> exact h e he r hmem
  | _ => exact h e he r hmem

theorem reaches_holdsRows (h : Reaches db as s) : HoldsRows db as s := by
  induction h with
  | nil =>
    intro e he
    cases he
  | snoc hr hs ih => exact ih.step hr hs

/-- Every object that is handed to the dispatch loop. -/
theorem issued_extracted (h : Reaches db as s) {sln : Solution} (hsln : sln ∈ issuedBy db as) :
    Extracted db as sln := by
  induction h with
  | nil => cases hsln
  | @snoc as a s s' hr hs ih =>
    rw [issuedBy, outputs_snoc hr, List.mem_append] at hsln
    rcases hsln with hold | hnew
    · exact (ih hold).snoc a
    suffices hthis : Extracted db as sln from hthis.snoc a
    obtain ⟨hen, -⟩ := Server.step_some.1 hs
    cases a with
    | query e ok =>
      obtain ⟨stmt, hstmt⟩ := Option.isSome_iff_exists.1 hen.2
      simp only [Server.issues, hstmt] at hnew
      split at hnew
      · rename_i code rows hret
        split_ifs at hnew with hcode
        · obtain ⟨addr, r, hrow, rfl⟩ := decodeRows_row hnew
          have hfound : r ∈ (e.next (ok && s.conn = .open) (s.query stmt ok).db).rows := by
            rw [hret]
            exact hrow
          exact ⟨addr, r, next_original hr (reaches_holdsRows hr) hen.1 hstmt hfound, rfl⟩
        · cases hnew
      · cases hnew
    | _ => cases hnew

/-! What is pushed to a client. -/

theorem pushesOf_events (h : Reaches db as s) (c : ClientRef) :
    pushesOf (eventsOf c as) = pushedTo c as := by
  induction h with
  | nil => rfl
  | @snoc as a s s' hr hs ih =>
    rw [eventsOf_snoc, pushesOf, List.flatMap_append, ← pushesOf, ih, pushedTo, pushedTo,
      List.filterMap_append]
    congr 1
    obtain ⟨hen, -⟩ := Server.step_some.1 hs
    cases a with
    | loop t me l ev =>
      have hnone : ev.pushes = [] := by
        cases ev with
        | push sln => exact absurd hen.2.1 (by simp [Server.admits])
        | _ => rfl
      by_cases hme : me = c <;> simp [Action.event, hme, hnone]
    | append who sln d => by_cases hd : d = c <;> simp [Action.event, hd, LoopEv.pushes]
    | _ => rfl

/-- What a client holds it goes on holding, until it is gone. -/
theorem kept_step (hg : Guarded s) (hs : s.step a = some s') (hc : c < s.nextClient)
    (hfree : (s.clients c).locked = false) (hfree' : (s'.clients c).locked = false)
    (hkept : ∀ t me, s.workers t ≠ .remove me c .free) (hlock : ∀ t me, a ≠ .lock t me c)
    {sln : Solution} (h : sln ∈ s.holds (.queue c) ∨ sln ∈ s.holds (.slot c)) :
    (sln ∈ s'.holds (.queue c) ∨ sln ∈ s'.holds (.slot c)) ∨ ∃ e, sln ∈ s.departs a e := by
  simp only [Server.holds, hfree, hfree', Bool.false_eq_true, if_false, Option.mem_toList] at h ⊢
  by_cases hclient : s.client a = some c
  swap
  · rw [Server.clients_other hs hclient]
    exact Or.inl h
  obtain ⟨hen, rfl⟩ := Server.step_some.1 hs
  cases a with
  | register t compilers order =>
    obtain rfl := Option.some.inj hclient
    exact absurd hc (lt_irrefl _)
  | loop t me l ev =>
    obtain rfl := Option.some.inj hclient
    obtain ⟨d, l', hstep, heq⟩ := Server.next_loop hen
    have hthis : (s.next (.loop t me l ev)).clients me = d := by
      rw [heq]
      exact Server.setClient_same ..
    rw [hthis]
    cases loopStep_holding hstep with
    | @pop d x hqueue hslot =>
      have hqueue : (s.clients me).solutionsQueue = x :: d.solutionsQueue := hqueue
      rw [hqueue, List.mem_cons] at h
      rcases h with (rfl | hrest) | hold
      · exact Or.inl (Or.inr hslot)
      · exact Or.inl (Or.inl hrest)
      · refine Or.inr ⟨.overwritten, ?_⟩
        simpa [Server.departs, Server.overwrites, hqueue] using hold
    | clear heq =>
      subst heq
      rcases h with hold | hold
      · exact Or.inl (Or.inl hold)
      · exact Or.inr ⟨.released, by simpa [Server.departs, Server.releases] using hold⟩
    | push => exact absurd hen.2.1 (by simp [Server.admits])
    | same hsame =>
      rw [hsame.queue, hsame.slot]
      exact Or.inl h
  | append who x d =>
    obtain rfl := Option.some.inj hclient
    left
    simp only [Server.next, Server.setCall, Server.setClient_same, Client.push, List.mem_append]
    exact h.imp_left Or.inl
  | lock t me d =>
    obtain rfl := Option.some.inj hclient
    exact absurd rfl (hlock t me)
  | unslot t me d | pop t me d | finish t me d =>
    obtain rfl := Option.some.inj hclient
    exact absurd (by rw [hen.1]; rfl) (hg.not_inside hfree t)
  | free t me d =>
    obtain rfl := Option.some.inj hclient
    exact absurd hen (hkept t me)
  | _ => cases hclient

/-- What was pushed to a client is there or gone. -/
structure PushedOnce (db : Table) (c : ClientRef) (as : List Action) (s : Server) : Prop where
  nodup : ((pushedTo c as).map Solution.addr).Nodup
  kept : ∀ sln ∈ pushedTo c as,
    (sln ∈ s.holds (.queue c) ∨ sln ∈ s.holds (.slot c)) ∨ ∃ e, sln ∈ goneBy db as e

theorem reaches_pushedOnce (h : Reaches db as s)
    (hsound : Along Server.step (.init db) as FreesUnlocked) (hlock : Unremoved c as) :
    PushedOnce db c as s := by
  induction h with
  | nil => exact ⟨List.nodup_nil, by simp [pushedTo]⟩
  | @snoc as a s s' hr hs ih =>
    obtain ⟨hbefore, hthis⟩ := Unremoved.snoc_iff.1 hlock
    have hsoundBefore := hsound.left
    have hgone : ∀ e, goneBy db (as ++ [a]) e = goneBy db as e ++ s.departs a e :=
      fun e => outputs_snoc hr a
    rcases Nat.lt_or_ge c s.nextClient with hc | hnew
    swap
    · have hnone : pushedTo c (as ++ [a]) = [] := by
        rw [← pushesOf_events (hr.snoc hs), eventsOf_snoc, eventsOf_unborn hr hnew,
          event_unborn hr (Server.step_some.1 hs).1 hnew]
        rfl
      exact ⟨by simp [hnone], by simp [hnone]⟩
    obtain ⟨hnodup, hkept⟩ := ih hsoundBefore hbefore
    obtain ⟨l, hl⟩ := reaches_seenBy hr hc hbefore
    have hfree' : (s'.clients c).locked = false := by
      obtain ⟨l, hl⟩ := reaches_seenBy (hr.snoc hs) (lt_of_lt_of_le hc (nextClient_step hs)) hlock
      exact hl.unlocked
    have hstill : ∀ sln ∈ pushedTo c as, (sln ∈ s'.holds (.queue c) ∨ sln ∈ s'.holds (.slot c)) ∨
        ∃ e, sln ∈ goneBy db (as ++ [a]) e := by
      intro sln hsln
      rcases hkept sln hsln with hheld | ⟨e, he⟩
      · refine (kept_step (reaches_guarded hr) hs hc hl.unlocked hfree' hl.kept hthis hheld).imp_right ?_
        rintro ⟨e, he⟩
        exact ⟨e, by rw [hgone]; exact List.mem_append_right _ he⟩
      · exact Or.inr ⟨e, by rw [hgone]; exact List.mem_append_left _ he⟩
    by_cases happend : ∃ who sln, a = .append who sln c
    swap
    · have hsame : pushedTo c (as ++ [a]) = pushedTo c as := by
        cases a with
        | append who sln d =>
          have hne : d ≠ c := fun heq => happend ⟨who, sln, heq ▸ rfl⟩
          simp [pushedTo, hne]
        | _ => simp [pushedTo]
      rw [hsame.symm] at hnodup hstill
      exact ⟨hnodup, hstill⟩
    -- the object that is pushed was in the hand of the caller
    obtain ⟨who, sln, rfl⟩ := happend
    have hsnoc : pushedTo c (as ++ [.append who sln c]) = pushedTo c as ++ [sln] := by
      simp [pushedTo]
    obtain ⟨hen, heq⟩ := Server.step_some.1 hs
    have haccounts := reaches_accounts hr hsoundBefore
    have hhand : sln ∈ s.holds (.hand who) := by simp [Server.holds, hen.1]
    have hother : ∀ x ∈ pushedTo c as, x.addr ≠ sln.addr := by
      intro x hx hsame
      have hmem : ∀ {xs : List Solution}, x ∈ xs → sln.addr ∈ xs.map Solution.addr :=
        fun hx => hsame ▸ List.mem_map_of_mem hx
      rcases hkept x hx with (hheld | hheld) | ⟨e, he⟩
      · exact haccounts.not_held hhand (by simp) (hmem hheld)
      · exact haccounts.not_held hhand (by simp) (hmem hheld)
      · exact haccounts.not_gone hhand e (hmem he)
    refine ⟨?_, fun x hx => ?_⟩
    · rw [hsnoc, List.map_append, List.nodup_append]
      refine ⟨hnodup, by simp, fun x hx y hy => ?_⟩
      obtain ⟨z, hz, rfl⟩ := List.mem_map.1 hx
      obtain rfl : y = sln.addr := by simpa using hy
      exact hother z hz
    · rw [hsnoc, List.mem_append, List.mem_singleton] at hx
      rcases hx with hx | rfl
      · exact hstill x hx
      · left
        left
        rw [← heq]
        simp [Server.holds, Server.next, Server.setCall, Client.push]

theorem pushed_issued (h : Reaches db as s)
    (hsound : Along Server.step (.init db) as FreesUnlocked) (hlock : Unremoved c as) {sln : Solution}
    (hsln : sln ∈ pushedTo c as) : sln ∈ issuedBy db as := by
  have haccounts := reaches_accounts h hsound
  rcases (reaches_pushedOnce h hsound hlock).kept sln hsln with (hheld | hheld) | ⟨e, he⟩
  · exact haccounts.held_issued hheld
  · exact haccounts.held_issued hheld
  · exact haccounts.gone_issued he

/-- A decoded object fits into a packet when its source does. -/
theorem Extracted.fits {sln : Solution} (h : Extracted db as sln)
    (hshort : ∀ row ∈ originals db as, row.source.length ≤ 65521) :
    sln.source.length = sln.sourceLen.toNat ∧ 13 + sln.sourceLen.toNat ≤ 65535 := by
  obtain ⟨addr, r, ⟨r₀, hmem, hsame⟩, rfl⟩ := h
  have hlen := hshort r₀ hmem
  rw [← hsame.source] at hlen
  rw [decodeRow_sourceLen addr (by omega), decodeRow_source_length]
  omega

/-! What is served is in memory. -/

/-- What is being sent is in the slot. -/
theorem loop_checking {x y : Client × Locals} {ev : LoopEv} (h : loopStep x ev = some y)
    (hx : ∀ sln, x.2.pc = .sending sln → x.1.checkingSolution = some sln) {sln : Solution}
    (hy : y.2.pc = .sending sln) : y.1.checkingSolution = some sln := by
  obtain ⟨c, l⟩ := x
  cases loopStep_rule h with
  | push | errno => exact hx sln hy
  | @running e b => cases b <;> cases hy
  | idle | post | clear => cases hy
  | pop hpop =>
    obtain rfl := LoopPc.sending.inj hy
    exact (popSolution_some hpop).2.1
  | send hsend =>
    rw [(afterSend_same c _ _ _).slot]
    simp only [afterSend] at hy
    split at hy
    · exact hx sln hy
    · split_ifs at hy
  | recvLen hrecv =>
    simp only [afterRecvLen] at hy
    split_ifs at hy
  | recvBody hrecv =>
    simp only [afterRecvBody, decodePacket] at hy
    split_ifs at hy

theorem SeenBy.serving {l : Locals} (h : SeenBy c as s l) {sln : Solution} (hs : s.Serving c sln) :
    sln ∈ s.holds (.queue c) ∨ sln ∈ s.holds (.slot c) := by
  have hchecking : ∀ sln, l.pc = .sending sln → (s.clients c).checkingSolution = some sln := by
    refine h.run.invariant
      (I := fun x => ∀ sln, x.2.pc = .sending sln → x.1.checkingSolution = some sln) ?_ ?_
    · intro sln hpc
      cases hpc
    · exact fun x ev y hx hstep sln hpc => loop_checking hstep hx hpc
  rcases hs with hqueue | hslot | ⟨t, e, hw⟩
  · exact Or.inl hqueue
  · exact Or.inr (by simp [Server.holds, h.unlocked, hslot])
  · have hl := h.stands t ⟨.sending sln, e⟩ (by rw [hw]; rfl) (by rw [hw]; rfl)
    exact Or.inr (by simp [Server.holds, h.unlocked, hchecking sln (by rw [← hl])])

theorem served_live (h : Reaches db as s) (hsound : Along Server.step (.init db) as FreesUnlocked)
    (hfirst : FreesFirst db as) (hlast : FreedLast db as s) (hc : c < s.nextClient)
    (hlock : Unremoved c as) : ∃ arrays, Run Memory.step (.init db) as ⟨s, arrays⟩ ∧
      ∀ sln, s.Serving c sln → ∃ b ∈ arrays, b.contains sln := by
  obtain ⟨arrays, hrun⟩ := (frees_valid_iff h hsound).2 hfirst
  have hlive := (held_live_iff hrun hsound).2 hlast
  obtain ⟨l, hl⟩ := reaches_seenBy h hc hlock
  refine ⟨arrays, hrun, fun sln hsln => ?_⟩
  rcases hl.serving hsln with hqueue | hslot
  · exact hlive _ sln hqueue
  · exact hlive _ sln hslot

/-- In every run whose batches are kept, for every client that nobody has begun to drain. -/
theorem clients_served (db : Table) (as : List Action) (s : Server) (c : ClientRef)
    (h : Reaches db as s) (hsound : Along Server.step (.init db) as FreesUnlocked)
    (hkept : BatchesKept db as) (hc : c < s.nextClient) (hlock : Unremoved c as) :
    Served db as s c := by
  obtain ⟨l, hl⟩ := reaches_seenBy h hc hlock
  set start := loopStart (s.clients c).id (.other 0) with hstart
  have htaken : takenBy db c as = taken start (eventsOf c as) :=
    outputs_seen (fun x sln => rfl) h hc hlock
  have hwritten : writtenTo db c as = wire start (eventsOf c as) :=
    outputs_seen (fun x sln => by simp [accepts]) h hc hlock
  have horder : takenBy db c as ++ (s.clients c).solutionsQueue = pushedTo c as := by
    rw [htaken, taken_queue hl.run, pushesOf_events h]
    rfl
  have hgenuine : ∀ sln ∈ pushedTo c as, Extracted db as sln :=
    fun sln hsln => issued_extracted h (pushed_issued h hsound hlock hsln)
  refine ⟨?_, horder, (reaches_pushedOnce h hsound hlock).nodup, hgenuine, ?_,
    fun hwhole hshort t l' hw hrem hpc => ?_⟩
  · rintro pre post t rfl hpre hct
    obtain ⟨hfirst, hlast⟩ := hkept pre post t rfl hpre
    refine served_live hpre hsound.left hfirst hlast hct fun u me hmem => ?_
    exact hlock u me (List.mem_append_left post hmem)
  · rw [hwritten, htaken]
    exact (wire_pieces hl.run).2
  · obtain rfl := hl.stands t l' (by rw [hw]; rfl) (by rw [hw]; rfl)
    have hbytes : writtenTo db c as = (takenBy db c as).flatMap solutionPacket := by
      have halong := along_seen (fun x sln hacc => by simp [LoopEv.sends] at hacc) h hc hlock hwhole
      have hstream := stream_whole hl.run halong
      rw [hwritten, htaken]
      unfold WholeSoFar at hstream
      split at hstream
      · rename_i sln heq
        exact absurd heq (hpc sln)
      · rename_i heq
        exact absurd heq hrem
      · exact hstream
    rw [hbytes]
    refine many_flatMap (fun sln hsln => ?_) fun sln _ => solutionPacket_ne_nil sln
    have hfits := (hgenuine sln (horder ▸ List.mem_append_left _ hsln)).fits hshort
    exact reads_packet hfits.1 hfits.2

/-- Single rows leave nothing of a batch behind. -/
theorem batchesKept_of_single (h : Reaches db as s)
    (hsound : Along Server.step (.init db) as FreesUnlocked)
    (hsingle : ∀ batch ∈ batches db as, batch.length ≤ 1) : BatchesKept db as := by
  rintro pre post t rfl hpre
  refine singles_first_last hpre hsound.left fun batch hbatch => hsingle batch ?_
  rw [batches, outputs_append hpre]
  exact List.mem_append_left _ hbatch

/-- The client has read the solution of row 1 and sent its result. -/
theorem clients_served_judged : ∃ s, Reaches oneNewRow judgedRun s ∧
    Served oneNewRow judgedRun s 0 ∧
      writtenTo oneNewRow 0 judgedRun = solutionPacket (decodeRow 0 (sampleRow 1)) := by
  have hrun : Reaches oneNewRow judgedRun _ := Run.iff_foldlM.2 rfl
  have hsound : Along Server.step (.init oneNewRow) judgedRun FreesUnlocked :=
    along_of_forall fun a ha s => by fin_cases ha <;> trivial
  have hbatches : batches oneNewRow judgedRun = [[decodeRow 0 (sampleRow 1)]] := rfl
  have hkept := batchesKept_of_single hrun hsound (by simp [hbatches])
  refine ⟨_, hrun, clients_served oneNewRow judgedRun _ 0 hrun hsound hkept (by decide) ?_, rfl⟩
  simp [Unremoved, judgedRun, joining, starting, extracting, pushing]

end JudgeServer
