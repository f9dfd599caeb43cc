import MiaVita.Lib.Decimal

/-!
# JSON texts

The grammar of JSON as relations between a text, the value at its start and what is left of the
text behind it. A value is a syntax tree: numbers and strings are kept as they are written, and the
members of an object in the order of the text, with equal names or not.

`Json.IsText` is the whole text. `Json.not_isText_comma` says that a text in which a comma follows
the first brace is no object.
-/

namespace Json

/-- A JSON value, as it is written. -/
inductive Value where
  | null
  | bool (b : Bool)
  | number (literal : List Char)
  | string (raw : List Char)
  | array (elements : List Value)
  | object (members : List (List Char × Value))

/-! ### Tokens -/

/-- A blank, a tab, a line feed or a carriage return. -/
def isWs (c : Char) : Bool := c == ' ' || c == '\t' || c == '\n' || c == '\r'

/-- White space up to the rest of the text. -/
inductive Ws : List Char → List Char → Prop where
  | nil (cs : List Char) : Ws cs cs
  | cons {c : Char} {cs rest : List Char} (hc : isWs c = true) (h : Ws cs rest) : Ws (c :: cs) rest

/-- The integer part of a number: no leading zero. -/
inductive IsInt : List Char → Prop where
  | zero : IsInt ['0']
  | digits {d : Char} {ds : List Char} (hd : d.isDigit = true) (hne : d ≠ '0')
    (hds : ∀ c ∈ ds, c.isDigit = true) : IsInt (d :: ds)

/-- The fraction of a number, if it has one. -/
inductive IsFrac : List Char → Prop where
  | none : IsFrac []
  | some {ds : List Char} (hne : ds ≠ []) (hds : ∀ c ∈ ds, c.isDigit = true) : IsFrac ('.' :: ds)

/-- The exponent of a number, if it has one. -/
inductive IsExp : List Char → Prop where
  | none : IsExp []
  | some {e : Char} {sign ds : List Char} (he : e = 'e' ∨ e = 'E')
    (hsign : sign = [] ∨ sign = ['+'] ∨ sign = ['-']) (hne : ds ≠ [])
    (hds : ∀ c ∈ ds, c.isDigit = true) : IsExp (e :: sign ++ ds)

/-- A number. -/
inductive IsNumber : List Char → Prop where
  | mk {sign int frac exp : List Char} (hsign : sign = [] ∨ sign = ['-']) (hint : IsInt int)
    (hfrac : IsFrac frac) (hexp : IsExp exp) : IsNumber (sign ++ int ++ frac ++ exp)

/-- A hexadecimal digit. -/
def isHex (c : Char) : Bool :=
  c.isDigit || ('a' ≤ c && c ≤ 'f') || ('A' ≤ c && c ≤ 'F')

/-- What stands between the quotation marks of a string. -/
inductive IsStringBody : List Char → Prop where
  | nil : IsStringBody []
  | plain {c : Char} {cs : List Char} (hc : 0x20 ≤ c.toNat) (hquote : c ≠ '\"') (hback : c ≠ '\\')
    (h : IsStringBody cs) : IsStringBody (c :: cs)
  | escape {c : Char} {cs : List Char} (hc : c ∈ ['\"', '\\', '/', 'b', 'f', 'n', 'r', 't'])
    (h : IsStringBody cs) : IsStringBody ('\\' :: c :: cs)
  | unicode {hex cs : List Char} (hlen : hex.length = 4) (hhex : ∀ c ∈ hex, isHex c = true)
    (h : IsStringBody cs) : IsStringBody ('\\' :: 'u' :: hex ++ cs)

/-! ### Values -/

mutual

/-- A value at the start of a text. -/
inductive ReadsValue : List Char → Value → List Char → Prop where
  | null {rest : List Char} : ReadsValue ("null".toList ++ rest) .null rest
  | true {rest : List Char} : ReadsValue ("true".toList ++ rest) (.bool true) rest
  | false {rest : List Char} : ReadsValue ("false".toList ++ rest) (.bool false) rest
  | number {literal rest : List Char} (h : IsNumber literal) :
    ReadsValue (literal ++ rest) (.number literal) rest
  | string {raw rest : List Char} (h : IsStringBody raw) :
    ReadsValue ('\"' :: raw ++ '\"' :: rest) (.string raw) rest
  | emptyArray {cs rest : List Char} (h : Ws cs (']' :: rest)) :
    ReadsValue ('[' :: cs) (.array []) rest
  | array {cs rest : List Char} {vs : List Value} (h : ReadsElements cs vs (']' :: rest)) :
    ReadsValue ('[' :: cs) (.array vs) rest
  | emptyObject {cs rest : List Char} (h : Ws cs ('}' :: rest)) :
    ReadsValue ('{' :: cs) (.object []) rest
  | object {cs rest : List Char} {ms : List (List Char × Value)}
    (h : ReadsMembers cs ms ('}' :: rest)) : ReadsValue ('{' :: cs) (.object ms) rest

/-- A value with white space around it. -/
inductive ReadsElement : List Char → Value → List Char → Prop where
  | mk {cs cs' cs'' rest : List Char} {v : Value} (hl : Ws cs cs') (h : ReadsValue cs' v cs'')
    (hr : Ws cs'' rest) : ReadsElement cs v rest

/-- One element or more, with commas in between. -/
inductive ReadsElements : List Char → List Value → List Char → Prop where
  | single {cs rest : List Char} {v : Value} (h : ReadsElement cs v rest) :
    ReadsElements cs [v] rest
  | cons {cs cs' rest : List Char} {v : Value} {vs : List Value}
    (h : ReadsElement cs v (',' :: cs')) (hs : ReadsElements cs' vs rest) :
    ReadsElements cs (v :: vs) rest

/-- A name, a colon and a value. -/
inductive ReadsMember : List Char → List Char × Value → List Char → Prop where
  | mk {cs raw cs' cs'' rest : List Char} {v : Value} (hl : Ws cs ('\"' :: raw ++ '\"' :: cs'))
    (hraw : IsStringBody raw) (hr : Ws cs' (':' :: cs'')) (h : ReadsElement cs'' v rest) :
    ReadsMember cs (raw, v) rest

/-- One member or more, with commas in between. -/
inductive ReadsMembers : List Char → List (List Char × Value) → List Char → Prop where
  | single {cs rest : List Char} {m : List Char × Value} (h : ReadsMember cs m rest) :
    ReadsMembers cs [m] rest
  | cons {cs cs' rest : List Char} {m : List Char × Value} {ms : List (List Char × Value)}
    (h : ReadsMember cs m (',' :: cs')) (hs : ReadsMembers cs' ms rest) :
    ReadsMembers cs (m :: ms) rest

end

/-- **A JSON text**: one value, and nothing behind it. -/
def IsText (cs : List Char) (v : Value) : Prop := ReadsElement cs v []

/-! ### Rejected texts -/

/-- Where a token that is no white space is to be read, there is no white space to skip. -/
theorem Ws.eq_of_not_isWs {c : Char} {cs rest : List Char} (hc : isWs c = false)
    (h : Ws (c :: cs) rest) : rest = c :: cs := by
  cases h with
  | nil => rfl
  | cons hc' => exact absurd (hc.symm.trans hc') (by decide)

private theorem ReadsMembers.not_comma {cs rest : List Char} {ms : List (List Char × Value)} :
    ¬ ReadsMembers (',' :: cs) ms rest := by
  have hmember : ∀ {m rest}, ¬ ReadsMember (',' :: cs) m rest := by
    rintro m rest ⟨hl, -, -, -⟩
    cases hl.eq_of_not_isWs (by decide)
  rintro (h | ⟨h, -⟩)
  · exact hmember h
  · exact hmember h

/-- What an object looks like. -/
theorem ReadsValue.object_inv {cs rest : List Char} {ms : List (List Char × Value)}
    (h : ReadsValue cs (.object ms) rest) :
    ∃ cs', cs = '{' :: cs' ∧ (Ws cs' ('}' :: rest) ∨ ReadsMembers cs' ms ('}' :: rest)) := by
  cases h with
  | emptyObject h => exact ⟨_, rfl, .inl h⟩
  | object h => exact ⟨_, rfl, .inr h⟩

/-- **A comma behind the opening brace** makes a text that is no object. -/
theorem not_isText_comma {cs : List Char} {ms : List (List Char × Value)} :
    ¬ IsText ('{' :: ',' :: cs) (.object ms) := by
  rintro ⟨hl, h, -⟩
  obtain rfl := hl.eq_of_not_isWs (by decide)
  obtain ⟨cs', hcs, hend | hmembers⟩ := h.object_inv
  · cases hcs
    cases hend.eq_of_not_isWs (by decide)
  · cases hcs
    exact hmembers.not_comma

/-! ### Accepted texts -/

private theorem Ws.of_forall {ws : List Char} (h : ∀ c ∈ ws, isWs c = true) (rest : List Char) :
    Ws (ws ++ rest) rest := by
  induction ws with
  | nil => exact .nil rest
  | cons c ws ih =>
    obtain ⟨hc, hws⟩ := List.forall_mem_cons.mp h
    exact .cons hc (ih hws)

/-- The empty object. -/
theorem isText_emptyObject : IsText ['{', '}'] (.object []) :=
  .mk (.nil _) (.emptyObject (.nil _)) (.nil _)

private theorem isInt_ofNat (n : ℕ) : IsInt (Decimal.ofNat n) := by
  by_cases hn : n = 0
  · rw [hn]
    exact .zero
  · have hhead := Decimal.head_ofNat_ne hn
    have hdigit := fun c => Decimal.isDigit_of_mem_ofNat (n := n) (c := c)
    obtain ⟨d, ds, hds⟩ := List.exists_cons_of_ne_nil (Decimal.ofNat_ne_nil n)
    simp only [hds, List.head_cons] at hhead
    rw [hds] at hdigit ⊢
    exact .digits (hdigit d List.mem_cons_self) hhead fun c hc =>
      hdigit c (List.mem_cons_of_mem d hc)

theorem isNumber_ofInt (z : ℤ) : IsNumber (Decimal.ofInt z) := by
  rw [Decimal.ofInt]
  split_ifs
  · simpa using IsNumber.mk (.inl rfl) (isInt_ofNat z.toNat) .none .none
  · simpa using IsNumber.mk (.inr rfl) (isInt_ofNat (-z).toNat) .none .none

theorem isNumber_ofNat (n : ℕ) : IsNumber (Decimal.ofNat n) := isNumber_ofInt n

/-- Characters that need no escape. -/
theorem isStringBody_of_forall {cs : List Char}
    (h : ∀ c ∈ cs, 0x20 ≤ c.toNat ∧ c ≠ '\"' ∧ c ≠ '\\') : IsStringBody cs := by
  induction cs with
  | nil => exact .nil
  | cons c cs ih =>
    obtain ⟨⟨hc, hquote, hback⟩, hcs⟩ := List.forall_mem_cons.mp h
    exact .plain hc hquote hback (ih hcs)

/-- A member with a number, with white space before it or not. -/
theorem readsMember_number {raw ws literal rest : List Char} (hraw : IsStringBody raw)
    (hws : ∀ c ∈ ws, isWs c = true) (h : IsNumber literal) :
    ReadsMember ('\"' :: raw ++ '\"' :: ':' :: (ws ++ (literal ++ rest))) (raw, .number literal)
      rest :=
  .mk (.nil _) hraw (.nil _) (.mk (.of_forall hws _) (.number h) (.nil _))

/-- A member with an object. -/
theorem readsMember_object {raw cs rest : List Char} {ms : List (List Char × Value)}
    (hraw : IsStringBody raw) (h : ReadsMembers cs ms ('}' :: rest)) :
    ReadsMember ('\"' :: raw ++ '\"' :: ':' :: '{' :: cs) (raw, .object ms) rest :=
  .mk (.nil _) hraw (.nil _) (.mk (.nil _) (.object h) (.nil _))

/-- White space before a member. -/
theorem ReadsMember.ws {c : Char} {cs rest : List Char} {m : List Char × Value}
    (hc : isWs c = true) (h : ReadsMember cs m rest) : ReadsMember (c :: cs) m rest := by
  obtain ⟨hl, hraw, hr, h⟩ := h
  exact .mk (.cons hc hl) hraw hr h

/-- An object is its members between braces. -/
theorem isText_object {cs : List Char} {ms : List (List Char × Value)}
    (h : ReadsMembers cs ms ['}']) : IsText ('{' :: cs) (.object ms) :=
  .mk (.nil _) (.object h) (.nil _)

end Json
