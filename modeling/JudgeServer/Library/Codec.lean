import Mathlib.Tactic

/-! Decoders that take a value off the front of a list of symbols, and the relation
that a decoder reads a value back from its encoding, whatever follows. It is kept by
sequencing, by length-prefixed framing and by repetition to the end of the list. -/

namespace Codec

variable {α β γ : Type*}

/-- The value at the front and the rest, or `none` where there is no such value. -/
abbrev Decoder (α β : Type*) := List α → Option (β × List α)

/-- `dec` reads `b` back from `code`, whatever follows. -/
def Reads (dec : Decoder α β) (code : List α) (b : β) : Prop :=
  ∀ rest, dec (code ++ rest) = some (b, rest)

def yield (b : β) : Decoder α β := fun l => some (b, l)

def andThen (dec : Decoder α β) (next : β → Decoder α γ) : Decoder α γ := fun l =>
  match dec l with
  | some (b, rest) => next b rest
  | none => none

def require (p : Prop) [Decidable p] : Decoder α Unit := fun l => if p then some ((), l) else none

def takeN (n : ℕ) : Decoder α (List α) := fun l =>
  if n ≤ l.length then some (l.take n, l.drop n) else none

/-- A field of `n` symbols. -/
def field (n : ℕ) (f : List α → β) : Decoder α β := andThen (takeN n) fun code => yield (f code)

/-- The next `n` symbols, which `dec` has to use up. -/
def within (n : ℕ) (dec : Decoder α β) : Decoder α β :=
  andThen (takeN n) fun body =>
    match dec body with
    | some (b, []) => yield b
    | _ => fun _ => none

/-- Exactly these symbols. -/
def literal [DecidableEq α] (code : List α) : Decoder α Unit := fun l =>
  if code <+: l then some ((), l.drop code.length) else none

/-- What stands before the next `stop`, which is used up too. -/
def upTo [DecidableEq α] (stop : α) : Decoder α (List α)
  | [] => none
  | a :: l => if a = stop then some ([], l) else (upTo stop l).map fun r => (a :: r.1, r.2)

/-- Values up to the end of the list; each of them takes at least one symbol. -/
def many (dec : Decoder α β) (l : List α) : Option (List β) :=
  match l with
  | [] => some []
  | a :: l =>
    match dec (a :: l) with
    | some (b, rest) =>
      if rest.length ≤ l.length then (many dec rest).map (b :: ·) else none
    | none => none
termination_by l.length

theorem reads_yield (b : β) : Reads (yield b : Decoder α β) [] b := fun _ => rfl

theorem Reads.andThen {dec : Decoder α β} {next : β → Decoder α γ} {code code' : List α} {b : β}
    {c : γ} (h : Reads dec code b) (h' : Reads (next b) code' c) :
    Reads (Codec.andThen dec next) (code ++ code') c := by
  intro rest
  have hfirst := h (code' ++ rest)
  rw [← List.append_assoc] at hfirst
  simp only [Codec.andThen, hfirst]
  exact h' rest

theorem Reads.require {next : Unit → Decoder α β} {code : List α} {b : β} {p : Prop} [Decidable p]
    (hp : p) (h : Reads (next ()) code b) :
    Reads (Codec.andThen (Codec.require p) next) code b := by
  intro rest
  simp only [Codec.andThen, Codec.require, if_pos hp]
  exact h rest

theorem reads_takeN {n : ℕ} {code : List α} (h : code.length = n) : Reads (takeN n) code code := by
  intro rest
  subst h
  simp [takeN]

theorem reads_field {n : ℕ} {code : List α} (f : List α → β) (h : code.length = n) :
    Reads (field n f) code (f code) := by
  have hfield : Reads (field n f) (code ++ []) (f code) := (reads_takeN h).andThen (reads_yield _)
  rwa [List.append_nil] at hfield

theorem Reads.within {dec : Decoder α β} {n : ℕ} {code : List α} {b : β} (h : Reads dec code b)
    (hn : code.length = n) : Reads (within n dec) code b := by
  have hall : dec code = some (b, []) := by simpa using h []
  have hbody := reads_takeN hn
  intro rest
  simp only [Codec.within, Codec.andThen, hbody rest, hall, yield]

theorem reads_literal [DecidableEq α] (code : List α) : Reads (literal code) code () := by
  intro rest
  rw [literal, if_pos (List.prefix_append _ _), List.drop_left]

theorem reads_upTo [DecidableEq α] {stop : α} {text : List α} (h : stop ∉ text) :
    Reads (upTo stop) (text ++ [stop]) text := by
  intro rest
  induction text with
  | nil => simp [upTo]
  | cons a text ih =>
    have hne : a ≠ stop := fun heq => h (heq ▸ List.mem_cons_self)
    have hrest : stop ∉ text := fun hmem => h (List.mem_cons_of_mem a hmem)
    rw [List.cons_append, List.cons_append, upTo, if_neg hne, ih hrest]
    rfl

theorem many_nil (dec : Decoder α β) : many dec [] = some [] := by rw [many]

theorem many_cons {dec : Decoder α β} {code rest : List α} {b : β} (h : Reads dec code b)
    (hne : code ≠ []) : many dec (code ++ rest) = (many dec rest).map (b :: ·) := by
  obtain ⟨a, code, rfl⟩ := List.exists_cons_of_ne_nil hne
  have hfirst := h rest
  rw [List.cons_append] at hfirst ⊢
  rw [many, hfirst]
  dsimp only
  rw [if_pos (by rw [List.length_append]; omega)]

/-- A concatenation of encodings decodes to the list of the values. -/
theorem many_flatMap {ι : Type*} {dec : Decoder α β} {enc : ι → List α} {val : ι → β} {xs : List ι}
    (h : ∀ x ∈ xs, Reads dec (enc x) (val x)) (hne : ∀ x ∈ xs, enc x ≠ []) :
    many dec (xs.flatMap enc) = some (xs.map val) := by
  induction xs with
  | nil => exact many_nil dec
  | cons x xs ih =>
    rw [List.flatMap_cons, many_cons (h x List.mem_cons_self) (hne x List.mem_cons_self),
      ih (fun y hy => h y (List.mem_cons_of_mem x hy))
        (fun y hy => hne y (List.mem_cons_of_mem x hy))]
    rfl

end Codec
