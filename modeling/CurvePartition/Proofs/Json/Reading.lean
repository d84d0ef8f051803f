-- SUMMARY: Documents as written are read as they are: strings piece by piece, and arrays and objects of any depth, whatever blanks stand before them.
import CurvePartition.Json.Parser
import CurvePartition.Json.Printer
import CurvePartition.Proofs.Decimal.Numerals

/-!
# Reading written documents

A document whose numerals and strings are spelled as they are written (`Json.WellFormed`) is read from its text as it is
(`Json.parse?_pretty`). Each step of the parser skips blanks first, so the lines and blanks of the text do not matter, and the length
of a text is enough fuel for it.
-/

namespace CurvePartition

namespace Json

variable {j : Json} {p : Piece} {pieces : List Piece} {rest s : List Char} {level fuel : Nat}

/-- Whether a piece of a string is spelled as it is written. Control characters are written as code units, but for those with an
escape of their own. -/
def Piece.WellFormed : Piece → Prop
  | .char c => 0x20 ≤ c.toNat ∨ c ∈ ['\x08', '\x0c', '\n', '\r', '\t']
  | .unit code => code < 2 ^ 16

/-- Whether all numerals and strings of a document are spelled as they are written. -/
inductive WellFormed : Json → Prop
  | null : WellFormed null
  | bool (value : Bool) : WellFormed (bool value)
  | number {n : Numeral} (h : n.WellFormed) : WellFormed (number n)
  | string {pieces : List Piece} (h : ∀ p ∈ pieces, p.WellFormed) : WellFormed (string pieces)
  | array {items : List Json} (h : ∀ j ∈ items, WellFormed j) : WellFormed (array items)
  | object {members : List (List Piece × Json)} (names : ∀ m ∈ members, ∀ p ∈ m.1, p.WellFormed)
    (values : ∀ m ∈ members, WellFormed m.2) : WellFormed (object members)

/-! ## Strings -/

theorem hexValue_digitChar : ∀ n < 16, hexValue (Nat.digitChar n) = some n := by decide

theorem hexUnit_digitChars {code : Nat} (h : code < 2 ^ 16) : hexUnit (Nat.digitChar (code / 4096 % 16))
    (Nat.digitChar (code / 256 % 16)) (Nat.digitChar (code / 16 % 16)) (Nat.digitChar (code % 16)) = some code := by
  have hmod : ∀ n, hexValue (Nat.digitChar (n % 16)) = some (n % 16) := fun n => hexValue_digitChar _ (Nat.mod_lt _ (by decide))
  simp only [hexUnit, hmod, Option.bind_eq_bind, Option.bind_some, Option.pure_def, Option.some.injEq]
  omega

/-- A string with one more piece in front. -/
def pushPiece (p : Piece) : Option (List Piece × List Char) → Option (List Piece × List Char)
  | none => none
  | some (pieces, rest) => some (p :: pieces, rest)

theorem scanString_short {e c : Char} (he : shortEscape e = some c) (s : List Char) :
    scanString ('\\' :: e :: s) = pushPiece (.char c) (scanString s) := by
  have hu : e ≠ 'u' := fun h => by
    rw [h] at he
    cases he
  rw [scanString.eq_def]
  split
  · rename_i heq
    cases heq
  · rename_i heq
    cases heq
  · rename_i heq
    exact absurd (List.cons.inj (List.cons.inj heq).2).1 hu
  · rename_i heq
    obtain ⟨rfl, rfl⟩ := List.cons.inj (List.cons.inj heq).2
    rw [he]
    cases scanString s <;> rfl
  · rename_i hnot heq
    obtain ⟨hback, hrest⟩ := List.cons.inj heq
    exact (hnot e s hback.symm hrest.symm).elim

theorem scanString_plain {c : Char} (hquote : c ≠ '"') (hback : c ≠ '\\') (hc : 0x20 ≤ c.toNat) (s : List Char) :
    scanString (c :: s) = pushPiece (.char c) (scanString s) := by
  rw [scanString.eq_def]
  split
  · rename_i heq
    cases heq
  · rename_i heq
    exact absurd (List.cons.inj heq).1 hquote
  · rename_i heq
    exact absurd (List.cons.inj heq).1 hback
  · rename_i heq
    exact absurd (List.cons.inj heq).1 hback
  · rename_i heq
    obtain ⟨rfl, rfl⟩ := List.cons.inj heq
    rw [if_neg (not_or_intro hback (Nat.not_lt.2 hc))]
    cases scanString s <;> rfl

/-- A character is escaped by another one, or stands for itself. -/
theorem escape_cases {c : Char} (h : (Piece.char c).WellFormed) : (∃ e, shortEscape e = some c ∧ escape c = ['\\', e]) ∨
    c ≠ '"' ∧ c ≠ '\\' ∧ 0x20 ≤ c.toNat ∧ escape c = [c] := by
  by_cases hmem : c ∈ ['"', '\\', '\x08', '\x0c', '\n', '\r', '\t']
  · simp only [List.mem_cons, List.not_mem_nil, or_false] at hmem
    rcases hmem with rfl | rfl | rfl | rfl | rfl | rfl | rfl
    all_goals exact .inl ⟨_, by rfl, rfl⟩
  · simp only [List.mem_cons, List.not_mem_nil, or_false, not_or] at hmem
    obtain ⟨hquote, hback, hb, hf, hn, hr, ht⟩ := hmem
    have hc : 0x20 ≤ c.toNat := h.resolve_right (by simp [hb, hf, hn, hr, ht])
    exact .inr ⟨hquote, hback, hc, by simp [escape, hquote, hback, hb, hf, hn, hr, ht, Nat.not_lt.2 hc]⟩

theorem scanString_piece (h : p.WellFormed) (s : List Char) : scanString (pieceChars p ++ s) = pushPiece p (scanString s) := by
  cases p with
  | unit code =>
    show scanString ('\\' :: 'u' :: _ :: _ :: _ :: _ :: s) = _
    rw [scanString, hexUnit_digitChars h]
    cases scanString s <;> rfl
  | char c =>
    rcases escape_cases h with ⟨e, he, hescape⟩ | ⟨hquote, hback, hc, hescape⟩
    · rw [pieceChars, hescape]
      exact scanString_short he s
    · rw [pieceChars, hescape]
      exact scanString_plain hquote hback hc s

theorem scanString_append (h : ∀ p ∈ pieces, p.WellFormed) (rest : List Char) :
    scanString (pieces.flatMap pieceChars ++ '"' :: rest) = some (pieces, rest) := by
  induction pieces with
  | nil => rfl
  | cons p pieces ih =>
    rw [List.flatMap_cons, List.append_assoc, scanString_piece (h p List.mem_cons_self),
      ih fun q hq => h q (List.mem_cons_of_mem p hq)]
    rfl

/-! ## Blanks -/

theorem skip_cons_of_not_blank {c : Char} (h : isBlank c = false) (s : List Char) : skip (c :: s) = c :: s := by
  rw [skip, List.dropWhile_cons_of_neg (by simp [h])]

@[simp] theorem skip_newline (level : Nat) (s : List Char) : skip (newline level ++ s) = skip s := by
  have hblank : ∀ c ∈ newline level, isBlank c = true := fun c hc => by
    rcases List.mem_cons.1 hc with rfl | hc
    · rfl
    · rw [List.eq_of_mem_replicate hc]
      rfl
  rw [skip, List.dropWhile_append_of_pos hblank, skip]

/-! ## Documents -/

/-- The first character of a numeral is none that another document starts with. -/
theorem numeral_start {c : Char} (h : c = '-' ∨ c.isDigit = true) :
    isBlank c = false ∧ c ≠ ']' ∧ c ≠ 'n' ∧ c ≠ 't' ∧ c ≠ 'f' ∧ c ≠ '"' ∧ c ≠ '[' ∧ c ≠ '\x7b' := by
  have hne : ∀ d, (d = '-' ∨ d.isDigit = true → False) → c ≠ d := fun d hd heq => hd (heq ▸ h)
  refine ⟨?_, hne _ (by decide), hne _ (by decide), hne _ (by decide), hne _ (by decide), hne _ (by decide), hne _ (by decide),
    hne _ (by decide)⟩
  simp [isBlank, hne ' ' (by decide), hne '\n' (by decide), hne '\t' (by decide), hne '\r' (by decide)]

/-- A document starts neither with a blank nor with a closing bracket. -/
theorem exists_prettyChars (hj : j.WellFormed) (level : Nat) :
    ∃ c s, prettyChars level j = c :: s ∧ isBlank c = false ∧ c ≠ ']' := by
  cases hj with
  | null => exact ⟨'n', _, rfl, rfl, by decide⟩
  | bool value => cases value <;> exact ⟨_, _, rfl, rfl, by decide⟩
  | number h =>
    obtain ⟨c, s, hchars, hc⟩ := h.exists_chars
    obtain ⟨hblank, hclose, _⟩ := numeral_start hc
    exact ⟨c, s, by rw [prettyChars, hchars], hblank, hclose⟩
  | string h => exact ⟨'"', _, rfl, rfl, by decide⟩
  | @array items h => cases items <;> exact ⟨'[', _, rfl, rfl, by decide⟩
  | @object members names values =>
    cases members with
    | nil => exact ⟨'\x7b', _, rfl, rfl, by decide⟩
    | cons m members => exact ⟨'\x7b', _, rfl, rfl, by decide⟩

theorem skip_prettyChars (hj : j.WellFormed) (level : Nat) (s : List Char) :
    skip (prettyChars level j ++ s) = prettyChars level j ++ s := by
  obtain ⟨c, tail, hchars, hblank, _⟩ := exists_prettyChars hj level
  rw [hchars]
  exact skip_cons_of_not_blank hblank _

/-- Whether a document is read from its text behind any blanks, with enough fuel. -/
def Scans (j : Json) : Prop := ∀ (level fuel : Nat) (s rest : List Char), (prettyChars level j).length < fuel →
  Numeral.Ends rest → skip s = prettyChars level j ++ rest → scanValue fuel s = some (j, rest)

/-- No numeral goes on behind the end of a line or a comma. -/
theorem ends_cons {c : Char} (hc : c ∈ ['\n', ',']) (s : List Char) : Numeral.Ends (c :: s) := by
  obtain ⟨hdigit, hpoint, hexponent⟩ : c.isDigit = false ∧ c ≠ '.' ∧ c ≠ 'e' ∧ c ≠ 'E' := by
    simp only [List.mem_cons, List.not_mem_nil, or_false] at hc
    rcases hc with rfl | rfl <;> decide
  exact {
    noDigit := fun _ heq => Option.some.inj heq ▸ hdigit
    noPoint := fun heq => hpoint (Option.some.inj heq)
    noExponent := fun _ heq => Option.some.inj heq ▸ hexponent }

theorem scans_number {n : Numeral} (h : n.WellFormed) : Scans (number n) := by
  intro level fuel s rest hfuel hrest hs
  obtain ⟨fuel, rfl⟩ := Nat.exists_eq_succ_of_ne_zero (Nat.ne_zero_of_lt hfuel)
  obtain ⟨c, tail, hchars, hc⟩ := h.exists_chars
  obtain ⟨_, _, hn, ht, hf, hquote, hopen, hbrace⟩ := numeral_start hc
  have hs' : skip s = c :: (tail ++ rest) := by rw [hs, prettyChars, hchars, List.cons_append]
  rw [scanValue.eq_def]
  dsimp only
  split
  · rename_i heq
    exact absurd (List.cons.inj (hs'.symm.trans heq)).1 hn
  · rename_i heq
    exact absurd (List.cons.inj (hs'.symm.trans heq)).1 ht
  · rename_i heq
    exact absurd (List.cons.inj (hs'.symm.trans heq)).1 hf
  · rename_i heq
    exact absurd (List.cons.inj (hs'.symm.trans heq)).1 hquote
  · rename_i heq
    exact absurd (List.cons.inj (hs'.symm.trans heq)).1 hopen
  · rename_i heq
    exact absurd (List.cons.inj (hs'.symm.trans heq)).1 hbrace
  · rw [hs, prettyChars, Numeral.scan_chars h hrest]
    rfl

/-- A value in a list ends where the next one or the end of the list follows. -/
theorem ends_prettyItems (level outer : Nat) (items : List Json) (s : List Char) :
    Numeral.Ends (prettyItems level items ++ (newline outer ++ s)) := by
  cases items with
  | nil => exact ends_cons (by decide) _
  | cons item items => exact ends_cons (by decide) _

theorem ends_prettyMembers (level outer : Nat) (members : List (List Piece × Json)) (s : List Char) :
    Numeral.Ends (prettyMembers level members ++ (newline outer ++ s)) := by
  cases members with
  | nil => exact ends_cons (by decide) _
  | cons m members => exact ends_cons (by decide) _

/-- The items of an array are read up to its closing bracket. -/
theorem scanItems_pretty {item : Json} {items : List Json} {outer : Nat} (hwf : ∀ x ∈ item :: items, x.WellFormed)
    (hscans : ∀ x ∈ item :: items, Scans x)
    (hfuel : (prettyChars level item).length + (prettyItems level items).length + 1 < fuel)
    (hs : skip s = prettyChars level item ++ (prettyItems level items ++ (newline outer ++ ']' :: rest))) :
    scanItems fuel s = some (item :: items, rest) := by
  induction items generalizing item fuel s with
  | nil =>
    obtain ⟨fuel, rfl⟩ := Nat.exists_eq_succ_of_ne_zero (Nat.ne_zero_of_lt hfuel)
    have hvalue := hscans item List.mem_cons_self level fuel s _ (by omega) (ends_prettyItems level outer [] _) hs
    rw [scanItems, hvalue]
    simp only [Option.bind_eq_bind, Option.bind_some, prettyItems, List.nil_append, skip_newline]
    rw [skip_cons_of_not_blank rfl]
    rfl
  | cons next items ih =>
    obtain ⟨fuel, rfl⟩ := Nat.exists_eq_succ_of_ne_zero (Nat.ne_zero_of_lt hfuel)
    have hvalue := hscans item List.mem_cons_self level fuel s _ (by omega) (ends_prettyItems level outer (next :: items) _) hs
    have hitems : prettyItems level (next :: items) ++ (newline outer ++ ']' :: rest) =
        ',' :: (newline level ++ (prettyChars level next ++ (prettyItems level items ++ (newline outer ++ ']' :: rest)))) := by
      simp [prettyItems]
    have hlength : (prettyItems level (next :: items)).length =
        1 + (newline level).length + (prettyChars level next).length + (prettyItems level items).length := by
      simp [prettyItems]
      omega
    have hwf' : ∀ x ∈ next :: items, x.WellFormed := fun x hx => hwf x (List.mem_cons_of_mem item hx)
    have hfuel' : (prettyChars level next).length + (prettyItems level items).length + 1 < fuel := by omega
    have hrest := ih (s := newline level ++ (prettyChars level next ++ (prettyItems level items ++ (newline outer ++ ']' :: rest))))
      hwf' (fun x hx => hscans x (List.mem_cons_of_mem item hx)) hfuel'
      (by rw [skip_newline, skip_prettyChars (hwf' next List.mem_cons_self)])
    rw [scanItems, hvalue, hitems]
    simp only [Option.bind_eq_bind, Option.bind_some]
    rw [skip_cons_of_not_blank rfl]
    simp only [hrest, Option.map_some]

/-- The characters of a member of an object. -/
def memberChars (level : Nat) (m : List Piece × Json) : List Char := stringChars m.1 ++ ':' :: ' ' :: prettyChars level m.2

/-- One member of an object is read, and the character behind it decides whether there are more. -/
theorem scanMembers_succ {m : List Piece × Json} {tail : List Char} (hname : ∀ p ∈ m.1, p.WellFormed) (hwf : m.2.WellFormed)
    (hscans : Scans m.2) (hfuel : (prettyChars level m.2).length < fuel) (hrest : Numeral.Ends rest)
    (hs : skip s = memberChars level m ++ rest) :
    (skip rest = '\x7d' :: tail → scanMembers (fuel + 1) s = some ([m], tail)) ∧
      (skip rest = ',' :: tail → scanMembers (fuel + 1) s = (scanMembers fuel tail).map fun r => (m :: r.1, r.2)) := by
  have hchars : memberChars level m ++ rest =
      '"' :: (m.1.flatMap pieceChars ++ '"' :: ':' :: ' ' :: (prettyChars level m.2 ++ rest)) := by
    simp [memberChars, stringChars]
  have hskip : skip (' ' :: (prettyChars level m.2 ++ rest)) = prettyChars level m.2 ++ rest := skip_prettyChars hwf level rest
  have hvalue := hscans level fuel _ rest hfuel hrest hskip
  have hcolon : skip (':' :: ' ' :: (prettyChars level m.2 ++ rest)) = ':' :: ' ' :: (prettyChars level m.2 ++ rest) :=
    skip_cons_of_not_blank rfl _
  rw [scanMembers, hs, hchars]
  simp only [scanString_append hname, hcolon, hvalue, Option.bind_eq_bind, Option.bind_some]
  refine ⟨fun hnext => ?_, fun hnext => ?_⟩
  · rw [hnext]
    rfl
  · rw [hnext]
    rfl

/-- The members of an object are read up to its closing brace. -/
theorem scanMembers_pretty {m : List Piece × Json} {members : List (List Piece × Json)} {outer : Nat}
    (hnames : ∀ x ∈ m :: members, ∀ p ∈ x.1, p.WellFormed) (hwf : ∀ x ∈ m :: members, x.2.WellFormed)
    (hscans : ∀ x ∈ m :: members, Scans x.2)
    (hfuel : (memberChars level m).length + (prettyMembers level members).length + 1 < fuel)
    (hs : skip s = memberChars level m ++ (prettyMembers level members ++ (newline outer ++ '\x7d' :: rest))) :
    scanMembers fuel s = some (m :: members, rest) := by
  have hvalue : (prettyChars level m.2).length < (memberChars level m).length := by
    simp only [memberChars, List.length_append, List.length_cons]
    omega
  induction members generalizing m fuel s with
  | nil =>
    obtain ⟨fuel, rfl⟩ := Nat.exists_eq_succ_of_ne_zero (Nat.ne_zero_of_lt hfuel)
    refine (scanMembers_succ (hnames m List.mem_cons_self) (hwf m List.mem_cons_self) (hscans m List.mem_cons_self) (by omega)
      (ends_prettyMembers level outer [] _) hs).1 ?_
    rw [prettyMembers, List.nil_append, skip_newline, skip_cons_of_not_blank rfl]
  | cons next members ih =>
    obtain ⟨fuel, rfl⟩ := Nat.exists_eq_succ_of_ne_zero (Nat.ne_zero_of_lt hfuel)
    have hmembers : prettyMembers level (next :: members) ++ (newline outer ++ '\x7d' :: rest) =
        ',' :: (newline level ++ (memberChars level next ++ (prettyMembers level members ++ (newline outer ++ '\x7d' :: rest)))) := by
      simp [prettyMembers, memberChars]
    have hlength : (prettyMembers level (next :: members)).length =
        1 + (newline level).length + (memberChars level next).length + (prettyMembers level members).length := by
      simp [prettyMembers, memberChars]
      omega
    have hfuel' : (memberChars level next).length + (prettyMembers level members).length + 1 < fuel := by omega
    have hrest := ih (s := newline level ++ (memberChars level next ++
      (prettyMembers level members ++ (newline outer ++ '\x7d' :: rest))))
      (fun x hx => hnames x (List.mem_cons_of_mem m hx)) (fun x hx => hwf x (List.mem_cons_of_mem m hx))
      (fun x hx => hscans x (List.mem_cons_of_mem m hx)) hfuel'
      (by rw [skip_newline]; exact skip_cons_of_not_blank rfl _)
      (by simp only [memberChars, List.length_append, List.length_cons]; omega)
    have hlt : (prettyChars level m.2).length < fuel := by omega
    have hsucc := (scanMembers_succ (hnames m List.mem_cons_self) (hwf m List.mem_cons_self) (hscans m List.mem_cons_self) hlt
      (ends_prettyMembers level outer (next :: members) _) hs).2 (by rw [hmembers, skip_cons_of_not_blank rfl])
    rw [hsucc, hrest]
    rfl

theorem scans_string (h : ∀ p ∈ pieces, p.WellFormed) : Scans (string pieces) := by
  intro level fuel s rest hfuel _ hs
  obtain ⟨fuel, rfl⟩ := Nat.exists_eq_succ_of_ne_zero (Nat.ne_zero_of_lt hfuel)
  have hchars : prettyChars level (string pieces) ++ rest = '"' :: (pieces.flatMap pieceChars ++ '"' :: rest) := by
    simp [prettyChars, stringChars]
  rw [scanValue, hs, hchars]
  simp only [scanString_append h, Option.map_some]

theorem scans_array {items : List Json} (hwf : ∀ x ∈ items, x.WellFormed) (hscans : ∀ x ∈ items, Scans x) :
    Scans (array items) := by
  intro level fuel s rest hfuel _ hs
  obtain ⟨fuel, rfl⟩ := Nat.exists_eq_succ_of_ne_zero (Nat.ne_zero_of_lt hfuel)
  cases items with
  | nil =>
    rw [scanValue, hs]
    rfl
  | cons item items =>
    have hchars : prettyChars level (array (item :: items)) ++ rest = '[' :: (newline (level + 1) ++
        (prettyChars (level + 1) item ++ (prettyItems (level + 1) items ++ (newline level ++ ']' :: rest)))) := by
      simp [prettyChars]
    have hlength : (prettyChars level (array (item :: items))).length =
        1 + (newline (level + 1)).length + (prettyChars (level + 1) item).length + (prettyItems (level + 1) items).length +
          (newline level).length + 1 := by
      simp [prettyChars]
      omega
    have hskip : skip (newline (level + 1) ++ (prettyChars (level + 1) item ++
        (prettyItems (level + 1) items ++ (newline level ++ ']' :: rest)))) =
        prettyChars (level + 1) item ++ (prettyItems (level + 1) items ++ (newline level ++ ']' :: rest)) := by
      rw [skip_newline, skip_prettyChars (hwf item List.mem_cons_self)]
    have hlt : (prettyChars (level + 1) item).length + (prettyItems (level + 1) items).length + 1 < fuel := by omega
    have hitems := scanItems_pretty hwf hscans hlt hskip
    -- The first item does not start with a closing bracket.
    obtain ⟨c, tail, hcons, _, hclose⟩ := exists_prettyChars (hwf item List.mem_cons_self) (level + 1)
    rw [scanValue, hs, hchars]
    simp only [hskip]
    split
    · rename_i heq
      rw [hcons] at heq
      exact absurd (List.cons.inj heq).1 hclose
    · rw [hitems]
      rfl

theorem scans_object {members : List (List Piece × Json)} (hnames : ∀ m ∈ members, ∀ p ∈ m.1, p.WellFormed)
    (hwf : ∀ m ∈ members, m.2.WellFormed) (hscans : ∀ m ∈ members, Scans m.2) : Scans (object members) := by
  intro level fuel s rest hfuel _ hs
  obtain ⟨fuel, rfl⟩ := Nat.exists_eq_succ_of_ne_zero (Nat.ne_zero_of_lt hfuel)
  cases members with
  | nil =>
    rw [scanValue, hs]
    rfl
  | cons m members =>
    have hchars : prettyChars level (object (m :: members)) ++ rest = '\x7b' :: (newline (level + 1) ++
        (memberChars (level + 1) m ++ (prettyMembers (level + 1) members ++ (newline level ++ '\x7d' :: rest)))) := by
      simp [prettyChars, memberChars]
    have hlength : (prettyChars level (object (m :: members))).length =
        1 + (newline (level + 1)).length + (memberChars (level + 1) m).length + (prettyMembers (level + 1) members).length +
          (newline level).length + 1 := by
      simp [prettyChars, memberChars]
      omega
    have hskip : skip (newline (level + 1) ++ (memberChars (level + 1) m ++
        (prettyMembers (level + 1) members ++ (newline level ++ '\x7d' :: rest)))) =
        memberChars (level + 1) m ++ (prettyMembers (level + 1) members ++ (newline level ++ '\x7d' :: rest)) := by
      rw [skip_newline]
      exact skip_cons_of_not_blank rfl _
    have hlt : (memberChars (level + 1) m).length + (prettyMembers (level + 1) members).length + 1 < fuel := by omega
    have hmembers := scanMembers_pretty hnames hwf hscans hlt hskip
    rw [scanValue, hs, hchars]
    simp only [hskip]
    split
    · rename_i heq
      cases (List.cons.inj heq).1
    · rw [hmembers]
      rfl

/-- A well-formed document is read behind any blanks, by induction on the document. -/
theorem scans (hj : j.WellFormed) : Scans j := by
  induction hj with
  | null =>
    intro level fuel s rest hfuel _ hs
    obtain ⟨fuel, rfl⟩ := Nat.exists_eq_succ_of_ne_zero (Nat.ne_zero_of_lt hfuel)
    rw [scanValue, hs]
    rfl
  | bool value =>
    intro level fuel s rest hfuel _ hs
    obtain ⟨fuel, rfl⟩ := Nat.exists_eq_succ_of_ne_zero (Nat.ne_zero_of_lt hfuel)
    rw [scanValue, hs]
    cases value <;> rfl
  | number h => exact scans_number h
  | string h => exact scans_string h
  | array hwf hscans => exact scans_array hwf hscans
  | object hnames hwf hscans => exact scans_object hnames hwf hscans

/-- What is written for a well-formed document is read as that document. -/
theorem parse?_pretty (hj : j.WellFormed) : parse? j.pretty = some j := by
  have hends : Numeral.Ends [] := {
    noDigit := fun _ h => by cases h
    noPoint := fun h => by cases h
    noExponent := fun _ h => by cases h }
  have hskip : skip (prettyChars 0 j) = prettyChars 0 j ++ [] := by simpa using skip_prettyChars hj 0 []
  have hscan := scans hj 0 ((prettyChars 0 j).length + 1) (prettyChars 0 j) [] (Nat.lt_succ_self _) hends hskip
  rw [parse?, pretty, String.toList_ofList, parseChars?, hscan]
  rfl

end Json

end CurvePartition
