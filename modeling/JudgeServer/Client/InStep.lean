import JudgeServer.Client.Framing

/-! The loop in step with the frames, and out of step with them for good after a
receive timeout inside a frame. -/

namespace JudgeServer

open Transition

/-- In step: between two frames, or with the length field of one read. -/
inductive Aligned (fs : List Frame) (pc : LoopPc) (pos : ℕ) (ps : List (ℕ × List UInt8)) : Prop
  | between {k : ℕ} (hps : ps = (placed 0 fs).take k) (hpos : pos = boundary fs k)
      (hpc : ∀ n, pc ≠ .recvBody n)
  | inBody {k : ℕ} {f : Frame} {n : UInt16} (hf : fs[k]? = some f)
      (hps : ps = (placed 0 fs).take k) (hpos : pos = boundary fs k + 2)
      (hpc : pc = .recvBody n) (hn : n.toNat = f.payload.length)

theorem Aligned.acted {fs : List Frame} {pc : LoopPc} {pos : ℕ} {ps : List (ℕ × List UInt8)}
    (h : Aligned fs pc pos ps) : ps <+: placed 0 fs := by
  cases h with
  | between hps => exact hps ▸ List.take_prefix _ _
  | inBody _ hps => exact hps ▸ List.take_prefix _ _

theorem aligned_step {fs : List Frame} {s s' : Client × Locals} {ev : LoopEv} {old : List UInt8}
    {ps : List (ℕ × List UInt8)} (h : Aligned fs s.2.pc old.length ps)
    (hread : Reads s old.length ev s') (hbytes : old ++ received ev.arrivals <+: stream fs)
    (htime : ∀ q ∈ timeouts old.length ev.arrivals, ∃ k, q = boundary fs k) :
    Aligned fs s'.2.pc (old.length + (received ev.arrivals).length)
      (ps ++ (actsOn s old.length ev).toList) := by
  cases hread with
  | nothing hnil _ hacts hkeep =>
    rw [hnil, hacts]
    simp only [List.length_nil, Nat.add_zero, Option.toList_none, List.append_nil]
    cases h with
    | between hps hpos hpc => exact .between hps hpos fun n hn => hpc n ((hkeep n).1 hn)
    | inBody hf hps hpos hpc hn => exact .inBody hf hps hpos ((hkeep _).2 hpc) hn
  | header htwo _ hacts hfrom hto =>
    rw [hacts, htwo]
    simp only [Option.toList_none, List.append_nil]
    cases h with
    | @between k hps hpos hpc =>
      obtain ⟨f, hf, hlen⟩ := header_at_boundary (received_at_boundary hbytes hpos) htwo
      rw [hlen] at hto
      exact .inBody hf hps (by rw [hpos]) hto f.resLen_toNat
    | inBody _ _ _ hpc => cases hfrom.symm.trans hpc
  | @body n hlen _ hacts hfrom hto =>
    cases h with
    | between _ _ hpc => exact absurd hfrom (hpc n)
    | @inBody k f m hf hps hpos hpc hm =>
      obtain rfl : n = m := LoopPc.recvBody.inj (hfrom.symm.trans hpc)
      have hpayload := body_at_boundary hbytes hpos hf (hlen.trans hm)
      refine .between (k := k + 1) ?_ ?_ hto
      · rw [hacts, List.take_add_one, placed_getElem?, hf, hps, hpos, hpayload]
        simp
      · rw [boundary_succ hf, hpos, hlen, hm, Frame.size]
        omega
  | timeout hat hacts hfrom hto =>
    rw [hacts]
    simp only [Option.toList_none, List.append_nil]
    rw [hat] at htime
    obtain ⟨j, hj⟩ := htime _ (List.mem_singleton_self _)
    cases h with
    | @between k hps hpos hpc =>
      -- a timeout at a boundary less than two bytes on is one at this boundary
      refine .between hps ?_ hto
      rcases hfrom with ⟨_, hlt⟩ | ⟨n, hn, _⟩
      · by_contra hne
        have hin : boundary fs k < old.length + (received ev.arrivals).length ∧
            old.length + (received ev.arrivals).length < boundary fs k + 2 := by omega
        cases hf : fs[k]? with
        | none =>
          have hbound : boundary fs j ≤ boundary fs k := by
            have hall : fs.take k = fs := List.take_of_length_le (List.getElem?_eq_none_iff.1 hf)
            have hle := boundary_mono fs (le_max_left j fs.length)
            have hend : boundary fs (max j fs.length) = boundary fs k := by
              simp [boundary, hall, List.take_of_length_le]
            omega
          omega
        | some f =>
          refine not_boundary_of_inside hf hin.1 ?_ j hj
          rw [Frame.size]
          omega
      · exact absurd hn (hpc n)
    | @inBody k f m hf hps hpos hpc hm =>
      exfalso
      rcases hfrom with ⟨hlen, _⟩ | ⟨n, hn, hlt⟩
      · cases hlen.symm.trans hpc
      · obtain rfl : n = m := LoopPc.recvBody.inj (hn.symm.trans hpc)
        refine not_boundary_of_inside hf ?_ ?_ j hj
        · omega
        · rw [Frame.size]
          omega

/-- As long as every timeout strikes between two frames the loop stays in step. -/
theorem aligned_run {fs : List Frame} {s₀ s : Client × Locals} {evs : List LoopEv}
    (hrun : Run loopStep s₀ evs s) (htop : s₀.2.pc = .top) (hdel : Delivers fs evs)
    (htime : ∀ q ∈ timeoutsOf evs, ∃ k, q = boundary fs k) :
    Aligned fs s.2.pc (bytesOf evs).length (packets s₀ 0 evs) := by
  induction hrun with
  | nil => exact .between (k := 0) rfl (by simp [bytesOf, arrivalsOf]) (by simp [htop])
  | @snoc evs ev s s' hr hs ih =>
    have hread := loopStep_reads hs hdel.stays_open (bytesOf evs).length
    have hbytes := hdel.bytes
    rw [bytesOf_append, bytesOf_single] at hbytes
    rw [timeoutsOf_snoc] at htime
    have hold := ih hdel.left (fun q hq => htime q (List.mem_append_left _ hq))
    rw [bytesOf_append, bytesOf_single, List.length_append, packets_snoc hr, Nat.zero_add]
    exact aligned_step hold hread hbytes (fun q hq => htime q (List.mem_append_right _ hq))

/-- Timeouts and the packets acted on do not overlap, and neither lies ahead. -/
structure Separated (pc : LoopPc) (pos : ℕ) (ts : List ℕ) (ps : List (ℕ × List UInt8)) : Prop where
  behind : ∀ q ∈ ts, q ≤ pos
  behindBody : ∀ n, pc = .recvBody n → 2 ≤ pos ∧ ∀ q ∈ ts, q + 2 ≤ pos
  ended : ∀ p ∈ ps, p.1 + 2 + p.2.length ≤ pos
  apart : ∀ p ∈ ps, ∀ q ∈ ts, q ≤ p.1 ∨ p.1 + 2 + p.2.length ≤ q

theorem separated_step {s s' : Client × Locals} {ev : LoopEv} {pos : ℕ} {ts : List ℕ}
    {ps : List (ℕ × List UInt8)} (h : Separated s.2.pc pos ts ps) (hread : Reads s pos ev s') :
    Separated s'.2.pc (pos + (received ev.arrivals).length) (ts ++ timeouts pos ev.arrivals)
      (ps ++ (actsOn s pos ev).toList) := by
  cases hread with
  | nothing hnil htime hacts hkeep =>
    simp only [hnil, htime, hacts, List.length_nil, Nat.add_zero, Option.toList_none,
      List.append_nil]
    exact ⟨h.behind, fun n hn => h.behindBody n ((hkeep n).1 hn), h.ended, h.apart⟩
  | header htwo htime hacts hfrom hto =>
    simp only [htwo, htime, hacts, Option.toList_none, List.append_nil]
    refine ⟨fun q hq => ?_, fun n _ => ⟨by omega, fun q hq => ?_⟩, fun p hp => ?_, h.apart⟩
    · have := h.behind q hq
      omega
    · have := h.behind q hq
      omega
    · have := h.ended p hp
      omega
  | @body n hlen htime hacts hfrom hto =>
    obtain ⟨htwo, hbehind⟩ := h.behindBody n hfrom
    simp only [htime, hacts, Option.toList_some, List.append_nil]
    refine ⟨fun q hq => ?_, fun m hm => absurd hm (hto m), fun p hp => ?_, fun p hp q hq => ?_⟩
    · have := h.behind q hq
      omega
    · rcases List.mem_append.1 hp with hp | hp
      · have := h.ended p hp
        omega
      · obtain rfl := List.mem_singleton.1 hp
        dsimp only
        omega
    · rcases List.mem_append.1 hp with hp | hp
      · exact h.apart p hp q hq
      · obtain rfl := List.mem_singleton.1 hp
        have := hbehind q hq
        left
        dsimp only
        omega
  | timeout htime hacts hfrom hto =>
    simp only [htime, hacts, Option.toList_none, List.append_nil]
    refine ⟨fun q hq => ?_, fun m hm => absurd hm (hto m), fun p hp => ?_, fun p hp q hq => ?_⟩
    · rcases List.mem_append.1 hq with hq | hq
      · have := h.behind q hq
        omega
      · exact (List.mem_singleton.1 hq).le
    · have := h.ended p hp
      omega
    · rcases List.mem_append.1 hq with hq | hq
      · exact h.apart p hp q hq
      · obtain rfl := List.mem_singleton.1 hq
        have := h.ended p hp
        right
        omega

theorem separated_run {fs : List Frame} {s₀ s : Client × Locals} {evs : List LoopEv}
    (hrun : Run loopStep s₀ evs s) (htop : s₀.2.pc = .top) (hdel : Delivers fs evs) :
    Separated s.2.pc (bytesOf evs).length (timeoutsOf evs) (packets s₀ 0 evs) := by
  induction hrun with
  | nil => exact ⟨by simp [timeoutsOf, arrivalsOf, timeouts], by simp [htop], by simp [packets],
      by simp [packets]⟩
  | @snoc evs ev s s' hr hs ih =>
    have hread := loopStep_reads hs hdel.stays_open (bytesOf evs).length
    rw [bytesOf_append, bytesOf_single, List.length_append, packets_snoc hr, Nat.zero_add,
      timeoutsOf_snoc]
    exact separated_step (ih hdel.left) hread

/-- No packet is acted on after a timeout that strikes inside a frame. -/
def SilentAfterInside (s₀ : Client × Locals) (fs : List Frame) (evs : List LoopEv) : Prop :=
  ∀ pre post s q, evs = pre ++ post → Run loopStep s₀ pre s → q ∈ timeoutsOf pre →
    (∀ k, q ≠ boundary fs k) → packets s (bytesOf pre).length post = []

/-- Once a timeout has struck inside a frame, every receive of a packet body is cut
short by another one. -/
def CutShortAfterInside (fs : List Frame) (evs : List LoopEv) : Prop :=
  ∀ pre post q, evs = pre ++ post → q ∈ timeoutsOf pre → (∀ k, q ≠ boundary fs k) →
    ∀ ev ∈ post, ev.CutShort

theorem silent_iff_cutShort {s₀ s : Client × Locals} {fs : List Frame} {evs : List LoopEv}
    (hrun : Run loopStep s₀ evs s) (hdel : Delivers fs evs) :
    SilentAfterInside s₀ fs evs ↔ CutShortAfterInside fs evs := by
  have htime : ∀ {pre post : List LoopEv}, evs = pre ++ post →
      ∀ a ∈ arrivalsOf post, a.OnTime := by
    rintro pre post rfl a ha
    apply hdel.timeout
    rw [arrivalsOf, List.flatMap_append]
    exact List.mem_append_right _ ha
  constructor
  · intro h pre post q hevs hq hin
    obtain ⟨t, hpre, hpost⟩ := Run.append_iff.1 (hevs ▸ hrun)
    exact (packets_eq_nil_iff hpost (htime hevs) _).1 (h pre post t q hevs hpre hq hin)
  · intro h pre post t q hevs hpre hq hin
    obtain ⟨t', hpre', hpost⟩ := Run.append_iff.1 (hevs ▸ hrun)
    obtain rfl := hpre.unique hpre'
    exact (packets_eq_nil_iff hpost (htime hevs) _).2 (h pre post q hevs hq hin)

/-- The first packet of a run is completed by a step from inside a body. -/
theorem first_packet {s : Client × Locals} {pos : ℕ} {evs : List LoopEv} {p : ℕ × List UInt8}
    {ps : List (ℕ × List UInt8)} (h : packets s pos evs = p :: ps) :
    ∃ pre ev post s', evs = pre ++ ev :: post ∧ Run loopStep s pre s' ∧
      actsOn s' (pos + (bytesOf pre).length) ev = some p := by
  induction evs generalizing s pos with
  | nil => cases h
  | cons ev evs ih =>
    cases hacts : actsOn s pos ev with
    | some p' =>
      simp only [packets, hacts, Option.toList_some, List.singleton_append, List.cons.injEq] at h
      obtain ⟨rfl, -⟩ := h
      exact ⟨[], ev, evs, s, rfl, Run.nil, by simpa [bytesOf, arrivalsOf] using hacts⟩
    | none =>
      simp only [packets, hacts, Option.toList_none, List.nil_append] at h
      split at h
      · rename_i s₁ hs
        obtain ⟨pre, ev', post, s', rfl, hr, hact⟩ := ih h
        refine ⟨ev :: pre, ev', post, s', rfl, Run.cons_iff.2 ⟨s₁, hs, hr⟩, ?_⟩
        have hbytes : bytesOf (ev :: pre) = received ev.arrivals ++ bytesOf pre := by
          simp [bytesOf, arrivalsOf]
        rw [hbytes, List.length_append, ← Nat.add_assoc]
        exact hact
      · cases h

theorem actsOn_pc {s : Client × Locals} {pos : ℕ} {ev : LoopEv} {p : ℕ × List UInt8}
    (h : actsOn s pos ev = some p) : (∃ n, s.2.pc = .recvBody n) ∧ p.1 = pos - 2 := by
  unfold actsOn at h
  split at h
  · split at h
    · rename_i n hpc
      split at h
      · split_ifs at h
        obtain rfl := Option.some.inj h
        exact ⟨⟨n, hpc⟩, rfl⟩
      · cases h
    · cases h
  · cases h

/-- A packet acted on after a timeout inside a frame is not the frame due next. -/
theorem silent_of_acted {s₀ : Client × Locals} {fs : List Frame} {evs : List LoopEv}
    (htop : s₀.2.pc = .top) (hdel : Delivers fs evs) (hacted : packets s₀ 0 evs <+: placed 0 fs) :
    SilentAfterInside s₀ fs evs := by
  intro pre post s q hevs hpre hq hin
  subst hevs
  by_contra hne
  obtain ⟨p, ps, hps⟩ := List.exists_cons_of_ne_nil hne
  obtain ⟨mid, ev, rest, s', rfl, hmid, hact⟩ := first_packet hps
  obtain ⟨⟨n, hpc⟩, hp⟩ := actsOn_pc hact
  -- the packet starts behind the timeout
  have hdel' : Delivers fs (pre ++ mid) := by
    rw [← List.append_assoc] at hdel
    exact hdel.left
  have hsep := separated_run (hpre.trans hmid) htop hdel'
  have hqp : q ≤ p.1 := by
    have hlen : (bytesOf (pre ++ mid)).length = (bytesOf pre).length + (bytesOf mid).length := by
      rw [bytesOf_append, List.length_append]
    have hbehind := (hsep.behindBody n hpc).2 q (timeoutsOf_append_mem hq)
    omega
  -- so the frame the timeout hit must have been acted on before
  rw [packets_append hpre, Nat.zero_add, hps] at hacted
  obtain ⟨tail, htail⟩ := hacted
  have hget : (placed 0 fs)[(packets s₀ 0 pre).length]? = some p := by
    rw [← htail]
    simp
  rw [placed_getElem?] at hget
  obtain ⟨f, hf, hfp⟩ := Option.map_eq_some_iff.1 hget
  have hpb : p.1 = boundary fs (packets s₀ 0 pre).length := by simp [← hfp]
  have hlt : q < boundary fs (packets s₀ 0 pre).length := by
    have hneq := hin (packets s₀ 0 pre).length
    omega
  obtain ⟨k, g, hk, hg, hkq, hqk⟩ := inside_frame hlt hin
  have hmem : (boundary fs k, g.payload) ∈ packets s₀ 0 pre := by
    have hgetk : (placed 0 fs)[k]? = some (boundary fs k, g.payload) := by
      rw [placed_getElem?, hg]
      simp
    rw [← htail, List.append_assoc, List.getElem?_append_left hk] at hgetk
    exact List.mem_of_getElem? hgetk
  have hapart := (separated_run hpre htop hdel.left).apart _ hmem q hq
  rw [Frame.size] at hqk
  dsimp only at hapart
  omega

/-- The events up to the first timeout inside a frame, if there is one. -/
theorem first_inside (fs : List Frame) (evs : List LoopEv) :
    (∀ q ∈ timeoutsOf evs, ∃ k, q = boundary fs k) ∨
      ∃ pre ev post q, evs = pre ++ ev :: post ∧ (∀ q ∈ timeoutsOf pre, ∃ k, q = boundary fs k) ∧
        q ∈ timeouts (bytesOf pre).length ev.arrivals ∧ ∀ k, q ≠ boundary fs k := by
  induction evs using List.reverseRecOn with
  | nil => exact Or.inl (by simp [timeoutsOf, arrivalsOf, timeouts])
  | append_singleton evs ev ih =>
    rcases ih with hall | ⟨pre, ev', post, q, rfl, hrest⟩
    · by_cases hev : ∀ q ∈ timeouts (bytesOf evs).length ev.arrivals, ∃ k, q = boundary fs k
      · left
        intro q hq
        rw [timeoutsOf_snoc] at hq
        rcases List.mem_append.1 hq with hq | hq
        · exact hall q hq
        · exact hev q hq
      · push Not at hev
        obtain ⟨q, hq, hin⟩ := hev
        exact Or.inr ⟨evs, ev, [], q, rfl, hall, hq, hin⟩
    · exact Or.inr ⟨pre, ev', post ++ [ev], q, by simp, hrest⟩

theorem acted_of_silent {s₀ s : Client × Locals} {fs : List Frame} {evs : List LoopEv}
    (hrun : Run loopStep s₀ evs s) (htop : s₀.2.pc = .top) (hdel : Delivers fs evs)
    (hsilent : SilentAfterInside s₀ fs evs) : packets s₀ 0 evs <+: placed 0 fs := by
  rcases first_inside fs evs with hall | ⟨pre, ev, post, q, rfl, hpre, hq, hin⟩
  · exact (aligned_run hrun htop hdel hall).acted
  · obtain ⟨t, hrpre, hrest⟩ := Run.append_iff.1 hrun
    obtain ⟨u, hstep, -⟩ := Run.cons_iff.1 hrest
    have hrev : Run loopStep s₀ (pre ++ [ev]) u := hrpre.snoc hstep
    have hcons : pre ++ ev :: post = (pre ++ [ev]) ++ post := by simp
    rw [hcons] at hdel hsilent ⊢
    have hquiet := hsilent (pre ++ [ev]) post u q rfl hrev
      (by rw [timeoutsOf_snoc]; exact List.mem_append_right _ hq) hin
    -- the step with the timeout acts on nothing
    have hacts : actsOn t (bytesOf pre).length ev = none := by
      cases loopStep_reads hstep hdel.left.stays_open (bytesOf pre).length with
      | nothing _ _ hacts => exact hacts
      | header _ _ hacts => exact hacts
      | body _ htime =>
        rw [htime] at hq
        cases hq
      | timeout _ hacts => exact hacts
    rw [packets_append hrev, Nat.zero_add, hquiet, List.append_nil, packets_snoc hrpre,
      Nat.zero_add, hacts]
    simp only [Option.toList_none, List.append_nil]
    exact (aligned_run hrpre htop hdel.left.left hpre).acted

/-- The packets acted on, with their offsets, are a prefix of the frames sent exactly
when, after a receive timeout inside a frame, every receive of a body is cut short. -/
theorem framing_iff (c : Client) (e : Errno) (fs : List Frame) (evs : List LoopEv)
    (s : Client × Locals) (hrun : Run loopStep (c, ⟨.top, e⟩) evs s) (hdel : Delivers fs evs) :
    packets (c, ⟨.top, e⟩) 0 evs <+: placed 0 fs ↔ CutShortAfterInside fs evs := by
  rw [← silent_iff_cutShort hrun hdel]
  exact ⟨silent_of_acted rfl hdel, acted_of_silent hrun rfl hdel⟩

def sampleFrame : Frame := ⟨[0, 1, 7], by decide⟩

def nextFrame : Frame := ⟨[5, 9], by decide⟩

/-- Two frames arrive in pieces, and between them nothing does for a while. -/
def wholeDelivery : List LoopEv :=
  [.running true, .process, .recvLen [.data [0], .data [3]], .recvBody [.data [0, 1, 7]] [],
    .running true, .process, .recvLen [.failed .EAGAIN],
    .running true, .process, .recvLen [.data [0, 2]], .recvBody [.data [5], .data [9]] []]

theorem framing_whole :
    Delivers [sampleFrame, nextFrame] wholeDelivery ∧
      packets (clientCreate 1, ⟨.top, .other 0⟩) 0 wholeDelivery = [(0, [0, 1, 7]), (5, [5, 9])] ∧
      CutShortAfterInside [sampleFrame, nextFrame] wholeDelivery := by
  have hdel : Delivers [sampleFrame, nextFrame] wholeDelivery :=
    ⟨by decide, by simp [wholeDelivery, arrivalsOf, LoopEv.arrivals, Arrival.OnTime]⟩
  refine ⟨hdel, rfl, ?_⟩
  exact (framing_iff (clientCreate 1) (.other 0) [sampleFrame, nextFrame] wholeDelivery _
    (Run.iff_foldlM.2 rfl) hdel).1 (by decide)

/-- The receive times out between the length field and the body; the loop then takes
the body for the next frame. -/
def splitDelivery : List LoopEv :=
  [.running true, .process, .recvLen [.data [0, 3]], .recvBody [.failed .EAGAIN] [],
    .running true, .process, .recvLen [.data [0, 1]], .recvBody [.data [7]] []]

theorem framing_lost :
    (∃ s, Run loopStep (clientCreate 1, ⟨.top, .other 0⟩) splitDelivery s) ∧
      Delivers [sampleFrame] splitDelivery ∧
      ¬ (packets (clientCreate 1, ⟨.top, .other 0⟩) 0 splitDelivery).map Prod.snd <+:
        [sampleFrame].map Frame.payload :=
  ⟨⟨_, Run.iff_foldlM.2 rfl⟩,
    ⟨by decide, by simp [splitDelivery, arrivalsOf, LoopEv.arrivals, Arrival.OnTime]⟩, by decide⟩

end JudgeServer
