import JudgeServer.Server.Step

/-! `local_control_loop` of server.c. A datagram overwrites the beginning of the receive
buffer and leaves the rest, and `strcmp` reads up to the next NUL wherever that stands; so
a command without one is read together with what an earlier datagram left behind it. -/

namespace JudgeServer

open Transition

/-- `char recv_buf[100]` -/
structure RecvBuf where
  bytes : List UInt8
  size : bytes.length = 100

/-- What `recvfrom` with a buffer of 100 bytes delivers. -/
structure Datagram where
  bytes : List UInt8
  fits : bytes.length ≤ 100

def RecvBuf.recvfrom (buf : RecvBuf) (d : Datagram) : RecvBuf where
  bytes := d.bytes ++ buf.bytes.drop d.bytes.length
  size := by
    have hfits := d.fits
    rw [List.length_append, List.length_drop, buf.size]
    omega

/-- `strcmp`; `none` is a read past the end of one of the two. -/
def strcmp : List UInt8 → List UInt8 → Option ℤ
  | x :: xs, y :: ys => if x = 0 ∨ x ≠ y then some (x.toNat - y.toNat) else strcmp xs ys
  | _, _ => none

inductive Reaction
  | reply (msg : List UInt8)
  | stop
  | nothing
  deriving DecidableEq, Repr

/-- The reply to `status`. -/
def statusMsg (serverRunning : Bool) : List UInt8 :=
  if serverRunning then cstr "Server is running" else cstr "Server is stopped"

/-- The comparisons after `recvfrom`. -/
def react (serverRunning : Bool) (recvBuf : List UInt8) : Reaction :=
  if strcmp recvBuf (cstr "status" ++ [0]) = some 0 then .reply (statusMsg serverRunning)
  else if strcmp recvBuf (cstr "stop" ++ [0]) = some 0 then .stop
  else .nothing

/-- The thread with the flag it sets. -/
structure Control where
  recvBuf : RecvBuf
  serverRunning : Bool
  ended : Bool

/-- What the loop does when the datagram comes in. -/
def Control.reaction (s : Control) (d : Datagram) : Reaction :=
  react s.serverRunning (s.recvBuf.recvfrom d).bytes

/-- A round of the loop. -/
def controlStep (s : Control) (d : Datagram) : Option Control :=
  if s.ended then none
  else match s.reaction d with
    | .stop => some ⟨s.recvBuf.recvfrom d, false, true⟩
    | _ => some { s with recvBuf := s.recvBuf.recvfrom d }

def controlOut (s : Control) (d : Datagram) : List Reaction :=
  if s.ended then [] else [s.reaction d]

/-- The text of a C string in memory. -/
def cText (mem : List UInt8) : List UInt8 := mem.takeWhile (· ≠ 0)

/-- What a text asks for. -/
def asks (serverRunning : Bool) (text : List UInt8) : Reaction :=
  if text = cstr "status" then .reply (statusMsg serverRunning)
  else if text = cstr "stop" then .stop
  else .nothing

/-- The reactions to the datagrams by their own content, up to the first `stop`. -/
def ownReactions (serverRunning : Bool) : List Datagram → List Reaction
  | [] => []
  | d :: ds =>
    match asks serverRunning (cText d.bytes) with
    | .stop => [.stop]
    | r => r :: ownReactions serverRunning ds

def IsCommand (text : List UInt8) : Prop := text = cstr "status" ∨ text = cstr "stop"

/-- The text that stands behind the datagram in the buffer. -/
def Control.behind (s : Control) (d : Datagram) : List UInt8 :=
  cText (s.recvBuf.bytes.drop d.bytes.length)

/-- The datagram has its NUL, or finds one behind it, or makes no command either way. -/
def Undisturbed (s : Control) (d : Datagram) : Prop :=
  s.ended = false → 0 ∈ d.bytes ∨ s.behind d = [] ∨
    ¬ IsCommand d.bytes ∧ ¬ IsCommand (d.bytes ++ s.behind d)

theorem cText_cons (x : UInt8) (mem : List UInt8) :
    cText (x :: mem) = if x = 0 then [] else x :: cText mem := by
  by_cases hx : x = 0 <;> simp [cText, hx]

/-- A comparison with a literal ends inside a longer buffer, and compares the texts. -/
theorem strcmp_zero_iff {mem : List UInt8} (text : List UInt8) (htext : 0 ∉ text)
    (hlen : text.length < mem.length) : strcmp mem (text ++ [0]) = some 0 ↔ cText mem = text := by
  have hdiff : ∀ x y : UInt8, some ((x.toNat : ℤ) - y.toNat) = some 0 ↔ x = y := by
    intro x y
    rw [Option.some_inj, ← UInt8.toNat_inj]
    omega
  induction text generalizing mem with
  | nil =>
    cases mem with
    | nil => simp at hlen
    | cons x mem =>
      rw [List.nil_append, strcmp, if_pos (Decidable.em _), hdiff, cText_cons]
      split_ifs with hx <;> simp [hx]
  | cons y text ih =>
    have hy : y ≠ 0 := fun heq => htext (heq ▸ List.mem_cons_self)
    cases mem with
    | nil => simp at hlen
    | cons x mem =>
      rw [List.cons_append, strcmp, cText_cons]
      by_cases hxy : x = y
      · subst hxy
        have hrest : strcmp mem (text ++ [0]) = some 0 ↔ cText mem = text :=
          ih (fun hmem => htext (List.mem_cons_of_mem x hmem)) (by simpa using hlen)
        rw [if_neg (by simp [hy]), if_neg hy, hrest, List.cons_inj_right]
      · rw [if_pos (Or.inr hxy), hdiff]
        refine iff_of_false hxy ?_
        split_ifs with hx
        · simp
        · exact fun heq => hxy (List.cons.inj heq).1

theorem react_eq (serverRunning : Bool) (buf : RecvBuf) :
    react serverRunning buf.bytes = asks serverRunning (cText buf.bytes) := by
  have hsize := buf.size
  have hstatus : strcmp buf.bytes (cstr "status" ++ [0]) = some 0 ↔ cText buf.bytes = _ :=
    strcmp_zero_iff _ (by decide) (by rw [hsize]; decide)
  have hstop : strcmp buf.bytes (cstr "stop" ++ [0]) = some 0 ↔ cText buf.bytes = _ :=
    strcmp_zero_iff _ (by decide) (by rw [hsize]; decide)
  simp only [react, asks, hstatus, hstop]

theorem cText_append (d rest : List UInt8) :
    cText (d ++ rest) = if 0 ∈ d then cText d else d ++ cText rest := by
  induction d with
  | nil => simp
  | cons x d ih =>
    rw [List.cons_append, cText_cons, cText_cons, ih]
    by_cases hx : x = 0
    · simp [hx]
    · simp only [if_neg hx, List.mem_cons, Ne.symm hx, false_or]
      split_ifs <;> rfl

theorem asks_nothing_iff {serverRunning : Bool} {text : List UInt8} :
    asks serverRunning text = .nothing ↔ ¬ IsCommand text := by
  unfold asks IsCommand
  split_ifs with hstatus hstop
  · simp [hstatus]
  · simp [hstop]
  · simp [hstatus, hstop]

/-- A command is known by what it asks for. -/
theorem asks_command {serverRunning : Bool} {text text' : List UInt8} (h : IsCommand text)
    (hasks : asks serverRunning text = asks serverRunning text') : text = text' := by
  by_contra hne
  unfold asks at hasks
  rcases h with rfl | rfl
  · rw [if_pos rfl, if_neg (Ne.symm hne)] at hasks
    split at hasks <;> cases hasks
  · rw [if_neg (by decide), if_pos rfl, if_neg (c := text' = cstr "stop") (Ne.symm hne)] at hasks
    split at hasks <;> cases hasks

theorem asks_eq_iff {serverRunning : Bool} {text text' : List UInt8} (hne : text ≠ text') :
    asks serverRunning text = asks serverRunning text' ↔ ¬ IsCommand text ∧ ¬ IsCommand text' := by
  refine ⟨fun hasks => ⟨fun h => hne (asks_command h hasks), fun h => ?_⟩, fun ⟨h, h'⟩ => ?_⟩
  · exact hne (asks_command h hasks.symm).symm
  · rw [asks_nothing_iff.2 h, asks_nothing_iff.2 h']

/-- The reaction is the one to the datagram's own content exactly when it is undisturbed. -/
theorem reaction_own_iff {s : Control} (h : s.ended = false) (d : Datagram) :
    s.reaction d = asks s.serverRunning (cText d.bytes) ↔ Undisturbed s d := by
  have hcontent : cText d.bytes = if 0 ∈ d.bytes then cText d.bytes else d.bytes := by
    have happend := cText_append d.bytes []
    rwa [List.append_nil, cText, cText, List.takeWhile_nil, List.append_nil] at happend
  have hbuffer : cText (s.recvBuf.recvfrom d).bytes =
      if 0 ∈ d.bytes then cText d.bytes else d.bytes ++ s.behind d := cText_append ..
  rw [Control.reaction, react_eq, hbuffer]
  unfold Undisturbed
  by_cases hnul : 0 ∈ d.bytes
  · simp [hnul]
  · rw [if_neg hnul] at hcontent ⊢
    rw [hcontent]
    by_cases hbehind : s.behind d = []
    · simp [hbehind]
    · have hne : d.bytes ++ s.behind d ≠ d.bytes := fun heq => hbehind (by simpa using heq)
      rw [asks_eq_iff hne]
      simp [h, hnul, hbehind, and_comm]

/-- Of the server a round changes what its step `stop` does, or nothing. -/
theorem controlStep_server {s s' : Control} {d : Datagram} (h : controlStep s d = some s')
    (x : Server) (hflag : s.serverRunning = x.serverRunning) :
    s'.serverRunning = (if s.reaction d = .stop then x.next .stop else x).serverRunning := by
  unfold controlStep at h
  split_ifs at h
  cases hreaction : s.reaction d with
  | stop =>
    rw [hreaction] at h
    obtain rfl := Option.some.inj h
    rfl
  | reply | nothing =>
    rw [hreaction] at h
    obtain rfl := Option.some.inj h
    exact hflag

theorem controlOut_ended {s : Control} (h : s.ended = true) (ds : List Datagram) :
    outputs controlStep controlOut s ds = [] := by
  cases ds with
  | nil => rfl
  | cons d ds => simp [outputs, controlOut, controlStep, h]

theorem undisturbed_ended {s : Control} (h : s.ended = true) (ds : List Datagram) :
    Along controlStep s ds Undisturbed := by
  cases ds with
  | nil => exact along_nil
  | cons d ds =>
    rintro (_ | ⟨d', pre⟩) a post s' he hrun
    · obtain rfl := Run.nil_iff.1 hrun
      exact fun hopen => absurd (h.symm.trans hopen) (by decide)
    · obtain ⟨t, hstep, -⟩ := Run.cons_iff.1 hrun
      simp [controlStep, h] at hstep

/-- The loop goes on with the new content of its buffer. -/
def Control.received (s : Control) (d : Datagram) : Control :=
  { s with recvBuf := s.recvBuf.recvfrom d }

theorem controlOut_cons {s : Control} (h : s.ended = false) (d : Datagram) (ds : List Datagram) :
    outputs controlStep controlOut s (d :: ds) =
      s.reaction d ::
        if s.reaction d = .stop then [] else outputs controlStep controlOut (s.received d) ds := by
  have hout : controlOut s d = [s.reaction d] := by simp [controlOut, h]
  split_ifs with hstop
  · have hstep : controlStep s d = some ⟨s.recvBuf.recvfrom d, false, true⟩ := by
      simp [controlStep, h, hstop]
    rw [outputs_cons hstep, hout, controlOut_ended rfl, List.append_nil]
  · have hstep : controlStep s d = some (s.received d) := by
      simp [controlStep, h, Control.received]
    rw [outputs_cons hstep, hout, List.singleton_append]

theorem undisturbed_cons {s : Control} (h : s.ended = false) (d : Datagram) (ds : List Datagram) :
    Along controlStep s (d :: ds) Undisturbed ↔
      Undisturbed s d ∧ (s.reaction d ≠ .stop → Along controlStep (s.received d) ds Undisturbed) := by
  by_cases hstop : s.reaction d = .stop
  · have hstep : controlStep s d = some ⟨s.recvBuf.recvfrom d, false, true⟩ := by
      simp [controlStep, h, hstop]
    rw [along_cons hstep]
    simp [undisturbed_ended, hstop]
  · have hstep : controlStep s d = some (s.received d) := by
      simp [controlStep, h, Control.received]
    rw [along_cons hstep]
    simp [hstop]

theorem ownReactions_cons (serverRunning : Bool) (d : Datagram) (ds : List Datagram) :
    ownReactions serverRunning (d :: ds) =
      asks serverRunning (cText d.bytes) ::
        if asks serverRunning (cText d.bytes) = .stop then []
        else ownReactions serverRunning ds := by
  rw [ownReactions]
  cases asks serverRunning (cText d.bytes) <;> rfl

/-- The reactions to all datagrams are those to their own content exactly when none of them
is disturbed by what stands behind it in the buffer. -/
theorem reactions_own_iff (s : Control) (ds : List Datagram) (h : s.ended = false) :
    outputs controlStep controlOut s ds = ownReactions s.serverRunning ds ↔
      Along controlStep s ds Undisturbed := by
  induction ds generalizing s with
  | nil => exact iff_of_true rfl along_nil
  | cons d ds ih =>
    have hrest : outputs controlStep controlOut (s.received d) ds =
        ownReactions s.serverRunning ds ↔ Along controlStep (s.received d) ds Undisturbed :=
      ih (s.received d) h
    rw [controlOut_cons h, ownReactions_cons, undisturbed_cons h, ← reaction_own_iff h,
      List.cons.injEq]
    refine and_congr_right fun hown => ?_
    rw [← hown]
    by_cases hstop : s.reaction d = .stop
    · simp [hstop]
    · simpa [hstop] using hrest

def zeroBuf : RecvBuf := ⟨List.replicate 100 0, List.length_replicate⟩

/-! The two commands without a NUL. -/

def statusDatagram : Datagram := ⟨cstr "status", by decide⟩

def stopDatagram : Datagram := ⟨cstr "stop", by decide⟩

def Datagram.withNul (d : Datagram) (h : d.bytes.length < 100) : Datagram :=
  ⟨d.bytes ++ [0], by simpa using h⟩

/-- Each of them with its NUL. -/
def commandsWithNul : List Datagram :=
  [statusDatagram.withNul (by decide), stopDatagram.withNul (by decide)]

/-- With it neither of them finds anything of the other. -/
theorem reactions_own_iff_withNul :
    outputs controlStep controlOut ⟨zeroBuf, true, false⟩ commandsWithNul =
        [.reply (cstr "Server is running"), .stop] ∧
      ownReactions true commandsWithNul = [.reply (cstr "Server is running"), .stop] ∧
      Along controlStep ⟨zeroBuf, true, false⟩ commandsWithNul Undisturbed := by
  have hout : outputs controlStep controlOut ⟨zeroBuf, true, false⟩ commandsWithNul =
      [.reply (cstr "Server is running"), .stop] := by decide
  have hown : ownReactions true commandsWithNul =
      [.reply (cstr "Server is running"), .stop] := by decide
  exact ⟨hout, hown, (reactions_own_iff ⟨zeroBuf, true, false⟩ commandsWithNul rfl).1
    (hout.trans hown.symm)⟩

/-- After `status` the buffer holds `stopus` when `stop` comes in. -/
theorem stop_ignored :
    outputs controlStep controlOut ⟨zeroBuf, true, false⟩ [statusDatagram, stopDatagram] =
        [.reply (cstr "Server is running"), .nothing] ∧
      outputs controlStep controlOut ⟨zeroBuf, true, false⟩ [statusDatagram, stopDatagram] ≠
        ownReactions true [statusDatagram, stopDatagram] := by
  constructor <;> decide

end JudgeServer
