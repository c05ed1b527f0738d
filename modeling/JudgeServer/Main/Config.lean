import JudgeServer.Server.Control

/-! `read_db_config` of main.c. The file is read into a block of exactly its size, without
a NUL behind it, and cut up by four calls of `strtok`; they stay inside the block only when
the file has enough lines that end in it. -/

namespace JudgeServer

/-- `"\n"` -/
def NEWLINE : UInt8 := 10

/-- The length of the run of newlines at a pointer; `none` is a read past the block. -/
def strspn : List UInt8 → Option ℕ
  | [] => none
  | b :: bs => if b = NEWLINE then (strspn bs).map (· + 1) else some 0

/-- The length of the run up to a newline or a NUL. -/
def strcspn : List UInt8 → Option ℕ
  | [] => none
  | b :: bs => if b = NEWLINE ∨ b = 0 then some 0 else (strcspn bs).map (· + 1)

/-- The block, and the pointer that `strtok` keeps between its calls. -/
structure Strtok where
  cfgBuf : List UInt8
  saved : ℕ
  deriving DecidableEq, Repr

/-- A call of `strtok`; the result is the offset of a token, or NULL. -/
def strtok (s : Strtok) : Option (Option ℕ × Strtok) := do
  let skipped ← strspn (s.cfgBuf.drop s.saved)
  let start := s.saved + skipped
  if s.cfgBuf[start]? = some 0 then some (none, { s with saved := start })
  else
    let len ← strcspn (s.cfgBuf.drop start)
    let stop := start + len
    if s.cfgBuf[stop]? = some 0 then some (some start, { s with saved := stop })
    else some (some start, ⟨s.cfgBuf.set stop 0, stop + 1⟩)

/-- `db_config`: offsets into the block, or NULL. -/
structure DbConfig where
  cfgBuf : List UInt8
  host : Option ℕ
  user : Option ℕ
  password : Option ℕ
  dbName : Option ℕ
  deriving DecidableEq, Repr

def readDbConfig (file : List UInt8) : Option DbConfig := do
  let (host, s) ← strtok ⟨file, 0⟩
  let (user, s) ← strtok s
  let (password, s) ← strtok s
  let (dbName, s) ← strtok s
  some ⟨s.cfgBuf, host, user, password, dbName⟩

namespace DbConfig

def fields (conf : DbConfig) : List (Option ℕ) := [conf.host, conf.user, conf.password, conf.dbName]

/-- The C string at an offset. -/
def text (conf : DbConfig) (p : ℕ) : List UInt8 := cText (conf.cfgBuf.drop p)

/-- `free(conf->host)` gets the start of the block, or NULL. -/
def HostFreed (conf : DbConfig) : Prop := conf.host = none ∨ conf.host = some 0

end DbConfig

/-! What the file says. -/

/-- The lines of a text that are not empty. -/
def lines (text : List UInt8) : List (List UInt8) := (text.splitOn NEWLINE).filter (· ≠ [])

/-- Those of them that end in a newline. -/
def terminated (text : List UInt8) : List (List UInt8) :=
  (text.splitOn NEWLINE).dropLast.filter (· ≠ [])

theorem lines_newline (text : List UInt8) : lines (NEWLINE :: text) = lines text := by
  have hsplit := List.splitOn_append_cons_self (a := NEWLINE) [] text
  rw [List.nil_append] at hsplit
  simp [lines, hsplit]

theorem lines_line {line : List UInt8} (hne : line ≠ []) (hline : NEWLINE ∉ line)
    (text : List UInt8) : lines (line ++ NEWLINE :: text) = line :: lines text := by
  simp [lines, List.splitOn_append_cons_self_of_not_mem hline, hne]

theorem lines_last {line : List UInt8} (hline : NEWLINE ∉ line) :
    lines line = if line = [] then [] else [line] := by
  rw [lines, List.splitOn_eq_singleton hline]
  split_ifs with hne <;> simp [hne]

theorem terminated_newline (text : List UInt8) : terminated (NEWLINE :: text) = terminated text := by
  have hsplit := List.splitOn_append_cons_self (a := NEWLINE) [] text
  rw [List.nil_append] at hsplit
  simp [terminated, hsplit, List.dropLast_cons_of_ne_nil (List.splitOn_ne_nil NEWLINE text)]

theorem terminated_line {line : List UInt8} (hne : line ≠ []) (hline : NEWLINE ∉ line)
    (text : List UInt8) : terminated (line ++ NEWLINE :: text) = line :: terminated text := by
  simp [terminated, List.splitOn_append_cons_self_of_not_mem hline, hne,
    List.dropLast_cons_of_ne_nil (List.splitOn_ne_nil NEWLINE text)]

theorem terminated_last {line : List UInt8} (hline : NEWLINE ∉ line) : terminated line = [] := by
  rw [terminated, List.splitOn_eq_singleton hline]
  rfl

theorem lines_newlines (k : ℕ) (text : List UInt8) :
    lines (List.replicate k NEWLINE ++ text) = lines text := by
  induction k with
  | zero => rfl
  | succ k ih => rw [List.replicate_succ, List.cons_append, lines_newline, ih]

theorem terminated_newlines (k : ℕ) (text : List UInt8) :
    terminated (List.replicate k NEWLINE ++ text) = terminated text := by
  induction k with
  | zero => rfl
  | succ k ih => rw [List.replicate_succ, List.cons_append, terminated_newline, ih]

/-- Nothing in it ends a token. -/
def Token (token : List UInt8) : Prop := token ≠ [] ∧ NEWLINE ∉ token ∧ 0 ∉ token

/-- What `strtok` finds from its pointer on. -/
inductive Scan : List UInt8 → Prop
  | blank (k : ℕ) : Scan (List.replicate k NEWLINE)
  | nul (k : ℕ) (rest : List UInt8) : Scan (List.replicate k NEWLINE ++ 0 :: rest)
  | cut (k : ℕ) {token : List UInt8} (ht : Token token) : Scan (List.replicate k NEWLINE ++ token)
  | ended (k : ℕ) {token : List UInt8} (ht : Token token) (rest : List UInt8) :
      Scan (List.replicate k NEWLINE ++ (token ++ 0 :: rest))
  | line (k : ℕ) {token : List UInt8} (ht : Token token) (rest : List UInt8) :
      Scan (List.replicate k NEWLINE ++ (token ++ NEWLINE :: rest))

theorem Scan.newline {text : List UInt8} (h : Scan text) : Scan (NEWLINE :: text) := by
  cases h with
  | blank k => exact .blank (k + 1)
  | nul k rest => exact .nul (k + 1) rest
  | cut k ht => exact .cut (k + 1) ht
  | ended k ht rest => exact .ended (k + 1) ht rest
  | line k ht rest => exact .line (k + 1) ht rest

/-- A byte of a token in front. -/
theorem Scan.byte {text : List UInt8} (h : Scan text) {b : UInt8} (hb : b ≠ NEWLINE) (h0 : b ≠ 0) :
    Scan (b :: text) := by
  have hone : Token [b] := ⟨by simp, by simpa using hb.symm, by simpa using h0.symm⟩
  have hmore : ∀ {token}, Token token → Token (b :: token) := by
    intro token ht
    refine ⟨by simp, ?_, ?_⟩
    · rw [List.mem_cons, not_or]
      exact ⟨hb.symm, ht.2.1⟩
    · rw [List.mem_cons, not_or]
      exact ⟨h0.symm, ht.2.2⟩
  cases h with
  | blank k =>
    cases k with
    | zero => exact .cut 0 hone
    | succ k => exact .line 0 hone (List.replicate k NEWLINE)
  | nul k rest =>
    cases k with
    | zero => exact .ended 0 hone rest
    | succ k => exact .line 0 hone (List.replicate k NEWLINE ++ 0 :: rest)
  | @cut k token ht =>
    cases k with
    | zero => exact .cut 0 (hmore ht)
    | succ k => exact .line 0 hone (List.replicate k NEWLINE ++ token)
  | @ended k token ht rest =>
    cases k with
    | zero => exact .ended 0 (hmore ht) rest
    | succ k => exact .line 0 hone (List.replicate k NEWLINE ++ (token ++ 0 :: rest))
  | @line k token ht rest =>
    cases k with
    | zero => exact .line 0 (hmore ht) rest
    | succ k => exact .line 0 hone (List.replicate k NEWLINE ++ (token ++ NEWLINE :: rest))

theorem scan (text : List UInt8) : Scan text := by
  induction text with
  | nil => exact .blank 0
  | cons b text ih =>
    by_cases hb : b = NEWLINE
    · exact hb ▸ ih.newline
    · by_cases h0 : b = 0
      · exact h0 ▸ .nul 0 text
      · exact ih.byte hb h0

theorem strspn_newlines (k : ℕ) : strspn (List.replicate k NEWLINE) = none := by
  induction k with
  | zero => rfl
  | succ k ih => simp [List.replicate_succ, strspn, ih]

theorem strspn_append (k : ℕ) {b : UInt8} (hb : b ≠ NEWLINE) (rest : List UInt8) :
    strspn (List.replicate k NEWLINE ++ b :: rest) = some k := by
  induction k with
  | zero => simp [strspn, hb]
  | succ k ih => simp [List.replicate_succ, strspn, ih]

theorem strcspn_token {token : List UInt8} (hline : NEWLINE ∉ token) (h0 : 0 ∉ token) :
    strcspn token = none := by
  induction token with
  | nil => rfl
  | cons b token ih =>
    simp only [List.mem_cons, not_or] at hline h0
    rw [strcspn, if_neg (by tauto), ih hline.2 h0.2]
    rfl

theorem strcspn_append {token : List UInt8} (hline : NEWLINE ∉ token) (h0 : 0 ∉ token) {c : UInt8}
    (hc : c = NEWLINE ∨ c = 0) (rest : List UInt8) :
    strcspn (token ++ c :: rest) = some token.length := by
  induction token with
  | nil => simp [strcspn, hc]
  | cons b token ih =>
    simp only [List.mem_cons, not_or] at hline h0
    rw [List.cons_append, strcspn, if_neg (by tauto), ih hline.2 h0.2]
    rfl

/-! One call, on what lies behind the pointer. -/

section

variable (front : List UInt8) (k : ℕ) {token : List UInt8} (rest : List UInt8)

theorem strtok_blank : strtok ⟨front ++ List.replicate k NEWLINE, front.length⟩ = none := by
  simp [strtok, strspn_newlines]

theorem strtok_nul : strtok ⟨front ++ (List.replicate k NEWLINE ++ 0 :: rest), front.length⟩ =
    some (none, ⟨front ++ (List.replicate k NEWLINE ++ 0 :: rest), front.length + k⟩) := by
  have h0 : (0 : UInt8) ≠ NEWLINE := by decide
  simp [strtok, strspn_append k h0]

/-- The block behind the newlines. -/
theorem drop_newlines (text : List UInt8) :
    (front ++ (List.replicate k NEWLINE ++ text)).drop (front.length + k) = text := by
  rw [← List.append_assoc]
  exact List.drop_left' (by simp)

theorem get_newlines (text : List UInt8) (i : ℕ) :
    (front ++ (List.replicate k NEWLINE ++ text))[front.length + k + i]? = text[i]? := by
  rw [← List.getElem?_drop, drop_newlines]

theorem set_newlines (text : List UInt8) (i : ℕ) (b : UInt8) :
    (front ++ (List.replicate k NEWLINE ++ text)).set (front.length + k + i) b =
      front ++ (List.replicate k NEWLINE ++ text.set i b) := by
  rw [List.set_append_right _ _ (by omega), List.set_append_right _ _ (by simp; omega)]
  congr 3
  simp
  omega

/-- The first byte of a token. -/
theorem Token.head {token : List UInt8} (ht : Token token) (rest : List UInt8) :
    ∃ b bs, token ++ rest = b :: bs ∧ b ≠ NEWLINE ∧ b ≠ 0 := by
  obtain ⟨hne, hline, h0⟩ := ht
  cases token with
  | nil => exact absurd rfl hne
  | cons b bs =>
    simp only [List.mem_cons, not_or] at hline h0
    exact ⟨b, bs ++ rest, rfl, Ne.symm hline.1, Ne.symm h0.1⟩

/-- The call has come to a token; it goes on to what ends it. -/
theorem strtok_token (ht : Token token) :
    strtok ⟨front ++ (List.replicate k NEWLINE ++ (token ++ rest)), front.length⟩ =
      (strcspn (token ++ rest)).bind fun len =>
        if (token ++ rest)[len]? = some 0 then
          some (some (front.length + k), ⟨front ++ (List.replicate k NEWLINE ++ (token ++ rest)),
            front.length + k + len⟩)
        else
          some (some (front.length + k),
            ⟨front ++ (List.replicate k NEWLINE ++ (token ++ rest).set len 0),
              front.length + k + len + 1⟩) := by
  obtain ⟨b, bs, htext, hb, h0⟩ := ht.head rest
  have hfirst := get_newlines front k (b :: bs) 0
  rw [Nat.add_zero, List.getElem?_cons_zero] at hfirst
  rw [htext, strtok, List.drop_left, strspn_append k hb]
  simp only [Option.bind_eq_bind, Option.bind_some, hfirst, Option.some_inj, if_neg h0,
    drop_newlines, get_newlines, set_newlines]

theorem strtok_cut (ht : Token token) :
    strtok ⟨front ++ (List.replicate k NEWLINE ++ token), front.length⟩ = none := by
  have hcall := strtok_token front k [] ht
  rw [List.append_nil, strcspn_token ht.2.1 ht.2.2] at hcall
  exact hcall

theorem strtok_ended (ht : Token token) :
    strtok ⟨front ++ (List.replicate k NEWLINE ++ (token ++ 0 :: rest)), front.length⟩ =
      some (some (front.length + k), ⟨front ++ (List.replicate k NEWLINE ++ (token ++ 0 :: rest)),
        front.length + k + token.length⟩) := by
  rw [strtok_token front k (0 :: rest) ht, strcspn_append ht.2.1 ht.2.2 (Or.inr rfl)]
  simp

theorem strtok_line (ht : Token token) :
    strtok ⟨front ++ (List.replicate k NEWLINE ++ (token ++ NEWLINE :: rest)), front.length⟩ =
      some (some (front.length + k), ⟨front ++ (List.replicate k NEWLINE ++ (token ++ 0 :: rest)),
        front.length + k + token.length + 1⟩) := by
  have hnewline : NEWLINE ≠ 0 := by decide
  rw [strtok_token front k (NEWLINE :: rest) ht, strcspn_append ht.2.1 ht.2.2 (Or.inl rfl)]
  simp [hnewline]

end

/-! Several calls. -/

def strtoks : ℕ → Strtok → Option (List (Option ℕ) × Strtok)
  | 0, s => some ([], s)
  | n + 1, s => do
    let (p, s) ← strtok s
    let (ps, s) ← strtoks n s
    some (p :: ps, s)

theorem readDbConfig_eq (file : List UInt8) :
    (readDbConfig file).map (fun conf => (conf.fields, conf.cfgBuf)) =
      (strtoks 4 ⟨file, 0⟩).map fun r => (r.1, r.2.cfgBuf) := by
  simp [readDbConfig, strtoks, DbConfig.fields, Option.map_bind, Option.bind_assoc]

theorem cText_newlines (k : ℕ) (text : List UInt8) :
    cText (List.replicate k NEWLINE ++ text) = List.replicate k NEWLINE ++ cText text := by
  have h0 : (0 : UInt8) ≠ NEWLINE := by decide
  rw [cText_append, if_neg (by simp [List.mem_replicate, h0])]

theorem Token.cText {token : List UInt8} (ht : Token token) (rest : List UInt8) :
    cText (token ++ 0 :: rest) = token := by
  rw [cText_append, if_neg ht.2.2, cText_cons, if_pos rfl, List.append_nil]

/-- Once `strtok` stands at a NUL, it stays there. -/
theorem strtoks_nul (n : ℕ) (front : List UInt8) (k : ℕ) (rest : List UInt8) :
    ∃ saved, strtoks n ⟨front ++ (List.replicate k NEWLINE ++ 0 :: rest), front.length⟩ =
      some (List.replicate n none, ⟨front ++ (List.replicate k NEWLINE ++ 0 :: rest), saved⟩) := by
  induction n generalizing front k with
  | zero => exact ⟨_, rfl⟩
  | succ n ih =>
    obtain ⟨saved, hrest⟩ := ih (front ++ List.replicate k NEWLINE) 0
    refine ⟨saved, ?_⟩
    rw [List.length_append, List.length_replicate, List.replicate_zero, List.nil_append,
      List.append_assoc] at hrest
    rw [strtoks, strtok_nul]
    simp only [Option.bind_eq_bind, Option.bind_some, hrest, List.replicate_succ]

/-- What `n` calls read: they stay inside the block when there is a NUL in it or enough
lines end in it, and then they find the first `n` lines. -/
structure CutsUp (n : ℕ) (front text : List UInt8) : Prop where
  inside_iff : (strtoks n ⟨front ++ text, front.length⟩).isSome ↔
    0 ∈ text ∨ n ≤ (terminated text).length
  found : ∀ ps s, strtoks n ⟨front ++ text, front.length⟩ = some (ps, s) →
    (∃ rest, s.cfgBuf = front ++ rest) ∧
      ps.map (Option.map fun p => cText (s.cfgBuf.drop p)) =
        (List.range n).map fun i => (lines (cText text))[i]?

/-- A list behind one that is looked up. -/
theorem range_cons (n : ℕ) (x : List UInt8) (xs : List (List UInt8)) :
    (List.range (n + 1)).map (fun i => (x :: xs)[i]?) =
      some x :: (List.range n).map fun i => xs[i]? := by
  simp [List.range_succ_eq_map, Function.comp_def]

namespace CutsUp

variable (n : ℕ) (front : List UInt8) (k : ℕ)

theorem outside {text : List UInt8} (h0 : 0 ∉ text) (hlines : terminated text = [])
    (hnone : strtok ⟨front ++ text, front.length⟩ = none) : CutsUp (n + 1) front text := by
  have hcalls : strtoks (n + 1) ⟨front ++ text, front.length⟩ = none := by
    rw [strtoks, hnone]
    rfl
  refine ⟨?_, fun ps s hps => ?_⟩
  · simp [hcalls, h0, hlines]
  · rw [hcalls] at hps
    cases hps

theorem nul (rest : List UInt8) : CutsUp n front (List.replicate k NEWLINE ++ 0 :: rest) := by
  obtain ⟨saved, hcalls⟩ := strtoks_nul n front k rest
  refine ⟨by simp [hcalls], fun ps s hps => ?_⟩
  rw [hcalls] at hps
  obtain ⟨rfl, rfl⟩ := Prod.mk.inj (Option.some.inj hps)
  refine ⟨⟨_, rfl⟩, ?_⟩
  have hnone : lines (cText (List.replicate k NEWLINE ++ 0 :: rest)) = [] := by
    rw [cText_newlines, cText_cons, if_pos rfl, lines_newlines]
    rfl
  simp [hnone]

theorem ended {token : List UInt8} (ht : Token token) (rest : List UInt8) :
    CutsUp (n + 1) front (List.replicate k NEWLINE ++ (token ++ 0 :: rest)) := by
  obtain ⟨saved, hrest⟩ := strtoks_nul n (front ++ List.replicate k NEWLINE ++ token) 0 rest
  have hcalls : strtoks (n + 1)
      ⟨front ++ (List.replicate k NEWLINE ++ (token ++ 0 :: rest)), front.length⟩ =
        some (some (front.length + k) :: List.replicate n none,
          ⟨front ++ (List.replicate k NEWLINE ++ (token ++ 0 :: rest)), saved⟩) := by
    simp only [List.length_append, List.length_replicate, List.replicate_zero, List.nil_append,
      List.append_assoc] at hrest
    rw [strtoks, strtok_ended _ _ _ ht]
    simp only [Option.bind_eq_bind, Option.bind_some, Nat.add_assoc, hrest]
  refine ⟨by simp [hcalls], fun ps s hps => ?_⟩
  rw [hcalls] at hps
  obtain ⟨rfl, rfl⟩ := Prod.mk.inj (Option.some.inj hps)
  have hone : lines (cText (List.replicate k NEWLINE ++ (token ++ 0 :: rest))) = [token] := by
    rw [cText_newlines, ht.cText, lines_newlines, lines_last ht.2.1, if_neg ht.1]
  refine ⟨⟨_, rfl⟩, ?_⟩
  rw [hone, range_cons, List.map_cons, Option.map_some, drop_newlines, ht.cText]
  simp

theorem line {token : List UInt8} (ht : Token token) {rest : List UInt8}
    (h : ∀ front, CutsUp n front rest) :
    CutsUp (n + 1) front (List.replicate k NEWLINE ++ (token ++ NEWLINE :: rest)) := by
  obtain ⟨hinside, hfound⟩ := h (front ++ (List.replicate k NEWLINE ++ (token ++ [0])))
  have hlength : (front ++ (List.replicate k NEWLINE ++ (token ++ [0]))).length =
      front.length + k + token.length + 1 := by
    simp only [List.length_append, List.length_replicate, List.length_singleton]
    omega
  have hbuf : front ++ (List.replicate k NEWLINE ++ (token ++ [0])) ++ rest =
      front ++ (List.replicate k NEWLINE ++ (token ++ 0 :: rest)) := by simp
  rw [hlength, hbuf] at hinside hfound
  have hcalls : strtoks (n + 1)
      ⟨front ++ (List.replicate k NEWLINE ++ (token ++ NEWLINE :: rest)), front.length⟩ =
        (strtoks n ⟨front ++ (List.replicate k NEWLINE ++ (token ++ 0 :: rest)),
          front.length + k + token.length + 1⟩).map fun r =>
            (some (front.length + k) :: r.1, r.2) := by
    rw [strtoks, strtok_line _ _ _ ht]
    simp only [Option.bind_eq_bind, Option.bind_some]
    cases strtoks n _ <;> rfl
  have hnul : (0 : UInt8) ≠ NEWLINE := by decide
  refine ⟨?_, fun ps s hps => ?_⟩
  · rw [hcalls, Option.isSome_map, hinside, terminated_newlines, terminated_line ht.1 ht.2.1]
    simp [ht.2.2, List.mem_replicate, hnul]
  · rw [hcalls] at hps
    obtain ⟨⟨qs, s'⟩, hrest, heq⟩ := Option.map_eq_some_iff.1 hps
    obtain ⟨rfl, rfl⟩ := Prod.mk.inj heq
    obtain ⟨⟨back, hback⟩, htexts⟩ := hfound qs s' hrest
    have hlines : lines (cText (List.replicate k NEWLINE ++ (token ++ NEWLINE :: rest))) =
        token :: lines (cText rest) := by
      rw [cText_newlines, lines_newlines, cText_append, if_neg ht.2.2, cText_cons, if_neg hnul.symm,
        lines_line ht.1 ht.2.1]
    refine ⟨⟨List.replicate k NEWLINE ++ (token ++ [0]) ++ back, by simpa using hback⟩, ?_⟩
    have hkept : s'.cfgBuf = front ++ (List.replicate k NEWLINE ++ (token ++ 0 :: back)) := by
      simpa using hback
    rw [hlines, range_cons, List.map_cons, htexts, Option.map_some, hkept, drop_newlines, ht.cText]

end CutsUp

theorem strtoks_cutsUp (n : ℕ) (front text : List UInt8) : CutsUp n front text := by
  induction n generalizing front text with
  | zero =>
    refine ⟨by simp [strtoks], fun ps s hps => ?_⟩
    obtain ⟨rfl, rfl⟩ := Prod.mk.inj (Option.some.inj hps)
    exact ⟨⟨text, rfl⟩, rfl⟩
  | succ n ih =>
    have hnul : (0 : UInt8) ≠ NEWLINE := by decide
    cases scan text with
    | blank k =>
      refine .outside n front (by simp [List.mem_replicate, hnul]) ?_ (strtok_blank front k)
      rw [← List.append_nil (List.replicate k NEWLINE), terminated_newlines]
      rfl
    | nul k rest => exact .nul (n + 1) front k rest
    | cut k ht =>
      refine .outside n front (by simp [List.mem_replicate, hnul, ht.2.2]) ?_ (strtok_cut front k ht)
      rw [terminated_newlines, terminated_last ht.2.1]
    | ended k ht rest => exact .ended n front k ht rest
    | line k ht rest => exact .line n front k ht fun front => ih front rest

/-- The first token is the start of the block, or there is none. -/
theorem strtok_first {file : List UInt8} {host : Option ℕ} {s : Strtok}
    (h : strtok ⟨file, 0⟩ = some (host, s)) :
    (host = none ∨ host = some 0) ↔ lines (cText file) = [] ∨ file.head? ≠ some NEWLINE := by
  have hnul : (0 : UInt8) ≠ NEWLINE := by decide
  have hhead : ∀ k (text : List UInt8), text.head? ≠ some NEWLINE →
      ((List.replicate k NEWLINE ++ text).head? ≠ some NEWLINE ↔ k = 0) := by
    intro k text htext
    cases k <;> simp [List.replicate_succ, htext]
  have htoken : ∀ k {token} (c : UInt8) (rest : List UInt8), Token token →
      lines (cText (List.replicate k NEWLINE ++ (token ++ c :: rest))) ≠ [] →
      host = some (0 + k) → ((host = none ∨ host = some 0) ↔
        lines (cText (List.replicate k NEWLINE ++ (token ++ c :: rest))) = [] ∨
          (List.replicate k NEWLINE ++ (token ++ c :: rest)).head? ≠ some NEWLINE) := by
    rintro k token c rest ht hlines rfl
    obtain ⟨b, bs, htext, hb, -⟩ := ht.head (c :: rest)
    rw [hhead k _ (by simp [htext, hb])]
    simp [hlines]
  cases scan file with
  | blank k =>
    have hcall := strtok_blank [] k
    rw [List.nil_append, List.length_nil] at hcall
    rw [hcall] at h
    cases h
  | nul k rest =>
    have hcall := strtok_nul [] k rest
    rw [List.nil_append, List.length_nil] at hcall
    rw [hcall] at h
    obtain ⟨rfl, -⟩ := Prod.mk.inj (Option.some.inj h)
    refine iff_of_true (Or.inl rfl) (Or.inl ?_)
    rw [cText_newlines, cText_cons, if_pos rfl, lines_newlines]
    rfl
  | cut k ht =>
    have hcall := strtok_cut [] k ht
    rw [List.nil_append, List.length_nil] at hcall
    rw [hcall] at h
    cases h
  | ended k ht rest =>
    have hcall := strtok_ended [] k rest ht
    rw [List.nil_append, List.length_nil] at hcall
    rw [hcall] at h
    refine htoken k 0 rest ht ?_ (Prod.mk.inj (Option.some.inj h)).1.symm
    rw [cText_newlines, ht.cText, lines_newlines, lines_last ht.2.1, if_neg ht.1]
    simp
  | line k ht rest =>
    have hcall := strtok_line [] k rest ht
    rw [List.nil_append, List.length_nil] at hcall
    rw [hcall] at h
    refine htoken k NEWLINE rest ht ?_ (Prod.mk.inj (Option.some.inj h)).1.symm
    rw [cText_newlines, lines_newlines, cText_append, if_neg ht.2.2, cText_cons, if_neg hnul.symm,
      lines_line ht.1 ht.2.1]
    simp

/-- For every file: the calls of `strtok` stay inside the block exactly when the file holds
a NUL or four lines that end in it; the fields are then the first four lines of its text,
and `free` gets a valid pointer exactly when the file does not begin with an empty line. -/
theorem config_read_iff (file : List UInt8) :
    ((readDbConfig file).isSome ↔ 0 ∈ file ∨ 4 ≤ (terminated file).length) ∧
      ∀ conf, readDbConfig file = some conf →
        conf.fields.map (Option.map conf.text) =
            (List.range 4).map (fun i => (lines (cText file))[i]?) ∧
          (conf.HostFreed ↔ lines (cText file) = [] ∨ file.head? ≠ some NEWLINE) := by
  obtain ⟨hinside, hfound⟩ := strtoks_cutsUp 4 [] file
  have heq := readDbConfig_eq file
  refine ⟨?_, fun conf hconf => ⟨?_, ?_⟩⟩
  · rw [← hinside, ← Option.isSome_map (f := fun conf : DbConfig => (conf.fields, conf.cfgBuf)), heq,
      Option.isSome_map]
    rfl
  · rw [hconf, Option.map_some] at heq
    obtain ⟨⟨ps, s⟩, hcalls, hsame⟩ := Option.map_eq_some_iff.1 heq.symm
    obtain ⟨hfields, hbuf⟩ := Prod.mk.inj hsame
    dsimp only at hfields hbuf
    have htexts := (hfound ps s hcalls).2
    rw [hfields, hbuf] at htexts
    exact htexts
  · cases hfirst : strtok ⟨file, 0⟩ with
    | none => simp [readDbConfig, hfirst] at hconf
    | some r =>
      obtain ⟨host, s⟩ := r
      have hhost : conf.host = host := by
        simp only [readDbConfig, hfirst, Option.bind_eq_bind, Option.bind_some,
          Option.bind_eq_some_iff] at hconf
        obtain ⟨r₁, -, r₂, -, r₃, -, hlast⟩ := hconf
        rw [← Option.some.inj hlast]
      rw [DbConfig.HostFreed, hhost]
      exact strtok_first hfirst

-- without a newline behind the last field the block is read past its end
example : readDbConfig (cstr "localhost\njudge\nsecret\njudgeweb") = none := rfl

end JudgeServer
