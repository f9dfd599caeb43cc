import Mathlib.Data.List.TakeWhile
import MiaVita.FredFramework.Headers
import MiaVita.Lib.CText

/-!
# The shell of the framework (`fred_framework/interceptor_shell`, `operations.c`)

`mkrule` and `rmrule` write one line to a file under `/proc`: an operation, and behind it the fields
of the rule, separated by colons. Numbers are printed in decimal; addresses and ports are in network
byte order, so that what is printed for an address is the signed number that the processor loads
from its four bytes.

`write_to_proc` appends to a buffer of 800 bytes, piece by piece; a piece that does not fit is a
write behind the buffer. What a request looks like is `putAll_ok`.
-/

namespace MiaVita.Framework

open Memory Bytes CText

/-! ### Numbers and addresses -/

/-- `itoa`, which is `sprintf("%d")`. -/
def itoa (num : ℤ) : List Char := Decimal.ofInt num

/-- `isspace`. -/
def isspace (c : Char) : Bool := c ∈ [' ', '\t', '\n', '\x0b', '\x0c', '\r']

/-- The value of the digits in front. -/
def digitsValue (cs : List Char) : ℕ := Nat.ofDigitChars 10 (cs.takeWhile Char.isDigit) 0

/-- `atoi`: blanks, a sign, digits; what does not fit an `int` is the largest or smallest one. -/
def atoi (s : List Char) : ℤ :=
  let value :=
    match s.dropWhile isspace with
    | '-' :: cs => -(digitsValue cs : ℤ)
    | '+' :: cs => (digitsValue cs : ℤ)
    | cs => (digitsValue cs : ℤ)
  max (-2 ^ 31) (min (2 ^ 31 - 1) value)

/-- One of the four numbers of an address. -/
def octet (s : List Char) : Option UInt8 :=
  if s ≠ [] ∧ s.all Char.isDigit ∧ (s.head? = some '0' → s.length = 1) ∧
      Nat.ofDigitChars 10 s 0 < 256 then
    some (UInt8.ofNat (Nat.ofDigitChars 10 s 0))
  else none

/-- An IPv4 address. -/
structure Ipv4 where
  a : UInt8
  b : UInt8
  c : UInt8
  d : UInt8

namespace Ipv4

/-- The address as text. -/
def dotted (ip : Ipv4) : List Char :=
  ['.'].intercalate
    [Decimal.ofNat ip.a.toNat, Decimal.ofNat ip.b.toNat, Decimal.ofNat ip.c.toNat,
      Decimal.ofNat ip.d.toNat]

/-- `s_addr`: what the processor loads from the four bytes in network byte order. -/
def sAddr (ip : Ipv4) : UInt32 := UInt32.ofNat (leVal [ip.a, ip.b, ip.c, ip.d])

end Ipv4

/-- `inet_pton(AF_INET, …)`. -/
def inetPton (s : List Char) : Option Ipv4 :=
  match (s.splitOn '.').mapM octet with
  | some [a, b, c, d] => some ⟨a, b, c, d⟩
  | _ => none

/-- `htons`, on a little-endian processor. -/
def htons (n : UInt16) : UInt16 := UInt16.ofNat (leVal (be 2 n.toNat))

/-! ### The line -/

/-- `sizeof(buffer)`, and `MAX_REGISTRY_LINE`. -/
abbrev maxRegistryLine : ℕ := 800

/-- A piece appended to the buffer. -/
def put (buffer piece : List Char) : Except Fault (List Char) :=
  if buffer.length + piece.length ≤ maxRegistryLine then .ok (buffer ++ piece)
  else .error (.write buffer.length piece.length)

/-- The protocol: a name that is not known leaves no separator either. -/
def protocolPieces : Option (List Char) → List (List Char)
  | none => [[':']]
  | some protocol =>
    (if protocol = "UDP".toList then [itoa ipprotoUdp, [':']] else []) ++
    (if protocol = "NETAGG".toList then [itoa agregatedIpEncapIpProto, [':']] else []) ++
    (if protocol = "APPAGG".toList then [itoa agregatedApplicationEncapUdpProto, [':']] else [])

/-- An address. What `inet_pton` does not accept leaves the zeros that were there; it never returns
less than zero for this family of addresses. -/
def addressPieces : Option (List Char) → List (List Char)
  | none => [[':']]
  | some addr => [itoa (((inetPton addr).map Ipv4.sAddr).getD 0).toInt32.toInt, [':']]

/-- A port, without the separator behind it. -/
def portText (port : List Char) : List Char := itoa (htons (UInt16.ofInt (atoi port))).toNat

/-- The destination port. -/
def dportPieces : Option (List Char) → List (List Char)
  | none => [[':']]
  | some port => [portText port, [':']]

/-- The source port is the last field; nothing is behind it. -/
def sportPieces : Option (List Char) → List (List Char)
  | none => []
  | some port => [portText port]

/-- `write_to_proc`: what is written to the file, if anything. The file can be opened and written.
-/
def writeToProc (op : Char) (interceptorName : List Char)
    (protocol daddr saddr dport sport ruleid : Option (List Char)) :
    Except Fault (Option (List Char)) :=
  if op = 'R' then do
    let buffer ← ([interceptorName, [':']] ++ protocolPieces protocol ++ addressPieces daddr ++
      addressPieces saddr ++ dportPieces dport ++ sportPieces sport).foldlM put [op, ':']
    return some (buffer ++ zeros (maxRegistryLine - buffer.length))
  else if op = 'U' then
    match ruleid with
    | none => .ok none
    | some ruleid => do
      let buffer ← put [op, ':'] (itoa (atoi ruleid))
      return some (buffer ++ zeros (maxRegistryLine - buffer.length))
  else .ok none

/-! ### Lemmas -/

private theorem isspace_of_isDigit {c : Char} (h : c.isDigit = true) : isspace c = false := by
  rw [isspace, decide_eq_false_iff_not]
  intro hc
  simp only [List.mem_cons, List.not_mem_nil, or_false] at hc
  obtain rfl | rfl | rfl | rfl | rfl | rfl := hc <;> exact absurd h (by decide)

/-- Pieces that fit together fit one by one. -/
theorem putAll_ok {buffer : List Char} {pieces : List (List Char)}
    (h : (buffer ++ pieces.flatten).length ≤ maxRegistryLine) :
    pieces.foldlM put buffer = .ok (buffer ++ pieces.flatten) := by
  induction pieces generalizing buffer with
  | nil =>
    rw [List.flatten_nil, List.append_nil]
    rfl
  | cons p pieces ih =>
    rw [List.flatten_cons, ← List.append_assoc] at h ⊢
    have hp : buffer.length + p.length ≤ maxRegistryLine := by
      rw [List.length_append, List.length_append] at h
      omega
    rw [List.foldlM_cons, put, if_pos hp]
    exact ih h

/-- Pieces that do not fit together are written behind the buffer. -/
theorem safe_putAll_iff {buffer : List Char} {pieces : List (List Char)}
    (h : buffer.length ≤ maxRegistryLine) :
    Safe (pieces.foldlM put buffer) ↔ (buffer ++ pieces.flatten).length ≤ maxRegistryLine := by
  induction pieces generalizing buffer with
  | nil =>
    rw [List.flatten_nil, List.append_nil]
    exact iff_of_true (safe_ok buffer) h
  | cons p pieces ih =>
    rw [List.foldlM_cons, put, List.flatten_cons, ← List.append_assoc]
    split_ifs with hp
    · rw [← List.length_append] at hp
      exact ih hp
    · refine iff_of_false (not_safe_error _) fun hle => hp ?_
      rw [List.length_append, List.length_append] at hle
      omega

/-- A number is read as it was written. -/
theorem atoi_ofNat {n : ℕ} (h : n < 2 ^ 31) : atoi (Decimal.ofNat n) = n := by
  obtain ⟨c, cs, hcs⟩ := List.exists_cons_of_ne_nil (Decimal.ofNat_ne_nil n)
  have hdigits : ∀ d ∈ Decimal.ofNat n, d.isDigit = true := fun d => Decimal.isDigit_of_mem_ofNat
  have hc : c.isDigit = true := hdigits c (by simp [hcs])
  -- the first character is a digit, so it is neither a blank nor a sign
  have hblank : (Decimal.ofNat n).dropWhile isspace = Decimal.ofNat n := by
    rw [hcs, List.dropWhile_cons_of_neg (by rw [isspace_of_isDigit hc]; decide)]
  have hvalue : digitsValue (Decimal.ofNat n) = n := by
    rw [digitsValue, List.takeWhile_eq_self_iff.mpr hdigits, Decimal.ofDigitChars_ofNat]
  have hminus : ∀ cs', Decimal.ofNat n ≠ '-' :: cs' := by
    rintro cs' h'
    exact absurd (hdigits '-' (by simp [h'])) (by decide)
  have hplus : ∀ cs', Decimal.ofNat n ≠ '+' :: cs' := by
    rintro cs' h'
    exact absurd (hdigits '+' (by simp [h'])) (by decide)
  have hmatch : atoi (Decimal.ofNat n) = max (-2 ^ 31) (min (2 ^ 31 - 1) (n : ℤ)) := by
    rw [atoi, hblank]
    split
    next cs' h' => exact absurd h' (hminus cs')
    next cs' h' => exact absurd h' (hplus cs')
    next => rw [hvalue]
  omega

theorem uint16_ofInt_toNat (p : UInt16) : UInt16.ofInt p.toNat = p := by
  have hlt := p.toNat_lt
  have hmod : (p.toNat % 2 ^ 16 : ℤ).toNat = p.toNat := by omega
  rw [UInt16.ofInt, hmod, UInt16.ofNat_toNat]

private theorem octet_ofNat (b : UInt8) : octet (Decimal.ofNat b.toNat) = some b := by
  have hone : (Decimal.ofNat b.toNat).head? = some '0' → (Decimal.ofNat b.toNat).length = 1 := by
    intro hzero
    by_cases hb : b.toNat = 0
    · rw [hb]
      rfl
    · have hhead := Decimal.head_ofNat_ne hb
      rw [List.head?_eq_some_head (Decimal.ofNat_ne_nil _), Option.some.injEq] at hzero
      exact absurd hzero hhead
  have hdigits : (Decimal.ofNat b.toNat).all Char.isDigit = true :=
    List.all_eq_true.mpr fun c => Decimal.isDigit_of_mem_ofNat
  rw [octet, Decimal.ofDigitChars_ofNat,
    if_pos ⟨Decimal.ofNat_ne_nil _, hdigits, hone, b.toNat_lt⟩, UInt8.ofNat_toNat]

/-- An address is read as it was written. -/
theorem inetPton_dotted (ip : Ipv4) : inetPton ip.dotted = some ip := by
  have hdot : ∀ n : ℕ, '.' ∉ Decimal.ofNat n := by
    intro n h
    exact absurd (Decimal.isDigit_of_mem_ofNat h) (by decide)
  rw [inetPton, Ipv4.dotted, List.splitOn_intercalate]
  · simp [octet_ofNat]
  · simp [hdot]
  · exact List.cons_ne_nil _ _

end MiaVita.Framework
