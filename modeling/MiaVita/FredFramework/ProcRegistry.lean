import MiaVita.FredFramework.Chains
import MiaVita.FredFramework.InterceptorShell

/-!
# The file that requests are written to (`fred_framework/proc_registry.c`)

`parse_request` walks over the line that the shell wrote. A field ends at a colon or at the zero
behind the line; an empty field is one that was not given. A number is copied to an array on the
stack, from where `simple_strtol` reads it.

The arrays have fixed sizes, `procRegistrySizes`, and are parameters here: `port_s` has 6 bytes, of
which 7 are cleared behind the destination port.

* `parseRule_fields` says what is made of a line, field by field.
* `requests_survive_proc`: with arrays that are large enough, what `mkrule` and `rmrule` are given
  is what `create_rule` and `remove_rule` are called with.
-/

namespace MiaVita.Framework

open Memory CText Fallible

/-! ### The source -/

/-- The arrays of `parse_request`. -/
structure Sizes where
  proto : ℕ
  addr : ℕ
  port : ℕ
  ruleid : ℕ

/-- `proto_s[4]`, `addr_s[16]`, `port_s[6]`, `ruleid_s[20]`. -/
def procRegistrySizes : Sizes := ⟨4, 16, 6, 20⟩

/-- What `parse_request` asks the interceptor manager for. -/
inductive Request
  | createRule (interceptorName : List Char) (sp : FilterSpecs)
  | removeRule (ruleid : UInt32)
  deriving DecidableEq

/-- `create_filter_specs`. -/
def createFilterSpecs (filterBy : UInt8) (dstAddr srcAddr : UInt32) (dstPort srcPort : UInt16)
    (proto : UInt8) : FilterSpecs :=
  ⟨filterBy, proto, dstAddr, srcAddr, dstPort, srcPort⟩

/-- `ENOMEM`. -/
abbrev enomem : ℤ := 12

section Parser

/-! `simple_strtol` is a parameter of the parser, so that a stricter one can take its place. -/

variable (read : List Char → Except Fault ℤ)

/-- What becomes of a field that starts and ends in front of a separator: one that is not empty is
copied to `arr` and read, `cleared` bytes of `arr` are cleared and `bit` is set in `filter_by`. -/
def numberField (arr f : List Char) (cleared : ℕ) (bit filterBy : UInt8) :
    Except Fault (ℤ × List Char × UInt8) :=
  if f = [] then .ok (0, arr, filterBy)
  else do
    let arr ← memcpy arr f
    let n ← read arr
    let arr ← clear arr cleared
    return (n, arr, filterBy ||| bit)

/-- The case `'R'` of `parse_request`. -/
def parseRule (sz : Sizes) (req : List Char) : Except Fault (Option Request) := do
  let (interceptorName, stop) ← field ':' req 2
  if interceptorName = [] then return none
  let (f, stop) ← field ':' req (stop + 1)
  let (ipproto, _, filterBy) ← numberField read (zeros sz.proto) f 0 filterByL4Proto 0
  let (f, stop) ← field ':' req (stop + 1)
  let (daddr, addrS, filterBy) ← numberField read (zeros sz.addr) f 16 filterByDstAddr filterBy
  let (f, stop) ← field ':' req (stop + 1)
  let (saddr, _, filterBy) ← numberField read addrS f 0 filterBySrcAddr filterBy
  let (f, stop) ← field ':' req (stop + 1)
  let (dport, portS, filterBy) ← numberField read (zeros sz.port) f 7 filterByDstPort filterBy
  let (f, _) ← field ':' req (stop + 1)
  let (sport, _, filterBy) ← numberField read portS f 0 filterBySrcPort filterBy
  return some (.createRule interceptorName
    (createFilterSpecs filterBy (UInt32.ofInt daddr) (UInt32.ofInt saddr) (UInt16.ofInt dport)
      (UInt16.ofInt sport) (UInt8.ofInt ipproto)))

/-- The case `'U'` of `parse_request`. -/
def parseRuleId (sz : Sizes) (req : List Char) : Except Fault (Option Request) := do
  let (f, _) ← field ':' req 2
  if f = [] then return none
  let ruleidS ← memcpy (zeros sz.ruleid) f
  let ruleid ← read ruleidS
  return some (.removeRule (UInt32.ofInt ruleid))

/-- `parse_request`, whatever reads the numbers. -/
def parseRequestWith (sz : Sizes) : List Char → Except Fault (Option Request)
  | [] => .error (.read 0 1)
  | c :: cs =>
    if c = 'R' then parseRule read sz (c :: cs)
    else if c = 'U' then parseRuleId read sz (c :: cs)
    else .ok none

/-- `procfile_write`: the value that `write` returns, and the request. What is written can be read.
-/
def procfileWriteWith (sz : Sizes) (buffer : List Char) : Except Fault (ℤ × Option Request) :=
  if buffer.length > maxRegistryLine then .ok (-enomem, none)
  else do
    let internalBuffer ← memcpy (zeros maxRegistryLine) buffer
    let request ← parseRequestWith read sz internalBuffer
    return (buffer.length, request)

end Parser

/-- `parse_request`, with `simple_strtol`. -/
def parseRequest : Sizes → List Char → Except Fault (Option Request) := parseRequestWith strtol

/-- `procfile_write`, with `simple_strtol`. -/
def procfileWrite : Sizes → List Char → Except Fault (ℤ × Option Request) :=
  procfileWriteWith strtol

/-! ### The requests -/

/-- The protocols that the shell knows. -/
inductive Protocol
  | udp
  | netagg
  | appagg

namespace Protocol

/-- What is written on the command line. -/
def name : Protocol → List Char
  | udp => "UDP".toList
  | netagg => "NETAGG".toList
  | appagg => "APPAGG".toList

/-- The number in the IP header. -/
def number : Protocol → UInt8
  | udp => UInt8.ofNat ipprotoUdp
  | netagg => UInt8.ofNat agregatedIpEncapIpProto
  | appagg => UInt8.ofNat agregatedApplicationEncapUdpProto

end Protocol

/-- What `mkrule` is given. -/
structure MkRule where
  interceptorName : List Char
  protocol : Option Protocol
  daddr : Option Ipv4
  saddr : Option Ipv4
  dport : Option UInt16
  sport : Option UInt16

/-- A field with a number, or an empty one. -/
def numeral : Option ℤ → List Char
  | none => []
  | some z => Decimal.ofInt z

/-- The number that is printed for an address in network byte order, an `int32_t`. -/
def Ipv4.printed (ip : Ipv4) : ℤ := ip.sAddr.toInt32.toInt

/-- The number that is printed for a port. -/
def printedPort (port : UInt16) : ℤ := (htons port).toNat

namespace MkRule

variable (r : MkRule)

/-- The five fields behind the name. -/
def fields : List (Option ℤ) :=
  [r.protocol.map fun p => p.number.toNat, r.daddr.map Ipv4.printed, r.saddr.map Ipv4.printed,
    r.dport.map printedPort, r.sport.map printedPort]

/-- `<R>:<interceptor name>:<ip proto>:<dest address>:<source address>:<dest port>:<source port>` -/
def line : List Char :=
  ['R', ':'] ++ r.interceptorName ++ [':'] ++ [':'].intercalate (r.fields.map numeral)

/-- `write_to_proc` for `mkrule`. -/
def write : Except Fault (Option (List Char)) :=
  writeToProc 'R' r.interceptorName (r.protocol.map Protocol.name) (r.daddr.map Ipv4.dotted)
    (r.saddr.map Ipv4.dotted) (r.dport.map fun p => Decimal.ofNat p.toNat)
    (r.sport.map fun p => Decimal.ofNat p.toNat) none

/-- The criteria of the fields that are given. -/
def filterBy : UInt8 :=
  (if r.protocol.isSome then filterByL4Proto else 0) |||
  (if r.daddr.isSome then filterByDstAddr else 0) |||
  (if r.saddr.isSome then filterBySrcAddr else 0) |||
  (if r.dport.isSome then filterByDstPort else 0) |||
  (if r.sport.isSome then filterBySrcPort else 0)

/-- What the rule has to look for: the fields that are given, addresses and ports in network byte
order. -/
def specs : FilterSpecs where
  filterBy := r.filterBy
  protocol := (r.protocol.map Protocol.number).getD 0
  dstAddr := (r.daddr.map Ipv4.sAddr).getD 0
  srcAddr := (r.saddr.map Ipv4.sAddr).getD 0
  dstPort := (r.dport.map htons).getD 0
  srcPort := (r.sport.map htons).getD 0

end MkRule

/-! ### Numbers that are printed and read -/

private theorem uint8_ofInt_toNat (b : UInt8) : UInt8.ofInt b.toNat = b := by
  have hlt := b.toNat_lt
  have hmod : (b.toNat % 2 ^ 8 : ℤ).toNat = b.toNat := by omega
  rw [UInt8.ofInt, hmod, UInt8.ofNat_toNat]

/-- A word that is printed as a signed number and read to a word again. -/
private theorem uint32_ofInt_toInt32 (x : UInt32) : UInt32.ofInt x.toInt32.toInt = x := by
  have hlt := x.toNat_lt
  have hbmod : x.toInt32.toInt = Int.bmod x.toNat (2 ^ 32) :=
    BitVec.toInt_eq_toNat_bmod x.toBitVec
  have hemod : Int.bmod x.toNat (2 ^ 32) % 2 ^ 32 = x.toNat % 2 ^ 32 := Int.bmod_emod
  have hmod : (x.toNat % 2 ^ 32 : ℤ).toNat = x.toNat := by omega
  rw [UInt32.ofInt, hbmod, hemod, hmod, UInt32.ofNat_toNat]

/-! ### Writing -/

private theorem protocolPieces_flatten (p : Option Protocol) :
    (protocolPieces (p.map Protocol.name)).flatten =
      numeral (p.map fun p => p.number.toNat) ++ [':'] := by
  rcases p with _ | _ | _ | _ <;> rfl

private theorem addressPieces_flatten (ip : Option Ipv4) :
    (addressPieces (ip.map Ipv4.dotted)).flatten = numeral (ip.map Ipv4.printed) ++ [':'] := by
  cases ip with
  | none => rfl
  | some ip =>
    rw [Option.map_some, addressPieces, inetPton_dotted]
    rfl

private theorem portText_ofNat (p : UInt16) :
    portText (Decimal.ofNat p.toNat) = Decimal.ofInt (printedPort p) := by
  have hlt := p.toNat_lt
  rw [portText, atoi_ofNat (by omega), uint16_ofInt_toNat]
  rfl

private theorem dportPieces_flatten (p : Option UInt16) :
    (dportPieces (p.map fun p => Decimal.ofNat p.toNat)).flatten =
      numeral (p.map printedPort) ++ [':'] := by
  cases p with
  | none => rfl
  | some p =>
    rw [Option.map_some, dportPieces, portText_ofNat]
    rfl

private theorem sportPieces_flatten (p : Option UInt16) :
    (sportPieces (p.map fun p => Decimal.ofNat p.toNat)).flatten = numeral (p.map printedPort) := by
  cases p with
  | none => rfl
  | some p =>
    rw [Option.map_some, sportPieces, portText_ofNat, List.flatten_singleton]
    rfl

/-- The shell writes the line, and zeros up to the end of its buffer. -/
theorem MkRule.write_eq {r : MkRule} (h : r.line.length < maxRegistryLine) :
    r.write = .ok (some (r.line ++ zeros (maxRegistryLine - r.line.length))) := by
  have hline : ['R', ':'] ++ ([r.interceptorName, [':']] ++
      protocolPieces (r.protocol.map Protocol.name) ++ addressPieces (r.daddr.map Ipv4.dotted) ++
      addressPieces (r.saddr.map Ipv4.dotted) ++
      dportPieces (r.dport.map fun p => Decimal.ofNat p.toNat) ++
      sportPieces (r.sport.map fun p => Decimal.ofNat p.toNat)).flatten = r.line := by
    simp only [List.flatten_append, protocolPieces_flatten, addressPieces_flatten,
      dportPieces_flatten, sportPieces_flatten, line, fields]
    simp [List.intercalate, List.intersperse]
  rw [write, writeToProc, if_pos rfl, putAll_ok (by rw [hline]; exact le_of_lt h), hline]
  rfl

/-! ### Reading -/

/-- Arrays in which every number has room, and in which what is cleared lies. -/
structure Sizes.Enough (sz : Sizes) : Prop where
  proto : 4 ≤ sz.proto
  addr : 16 ≤ sz.addr
  port : 7 ≤ sz.port
  ruleid : 11 ≤ sz.ruleid

/-- The same for one request: `port_s` is cleared behind a destination port only. -/
structure Sizes.EnoughFor {α : Type} (sz : Sizes) (dport : Option α) : Prop where
  proto : 4 ≤ sz.proto
  addr : 16 ≤ sz.addr
  port : 6 ≤ sz.port
  cleared : dport.isSome → 7 ≤ sz.port

private theorem Sizes.Enough.enoughFor {α : Type} {sz : Sizes} (h : sz.Enough) (dport : Option α) :
    sz.EnoughFor dport :=
  ⟨h.proto, h.addr, Nat.le_of_succ_le h.port, fun _ => h.port⟩

private theorem ofInt_separated (z : ℤ) : ∀ c ∈ Decimal.ofInt z, c ≠ ':' ∧ c ≠ nul := by
  intro c hc
  obtain rfl | hdigit := Decimal.eq_or_isDigit_of_mem_ofInt hc
  · decide
  · refine ⟨?_, ?_⟩ <;> rintro rfl <;> exact absurd hdigit (by decide)

private theorem numeral_separated (z : Option ℤ) : ∀ c ∈ numeral z, c ≠ ':' ∧ c ≠ nul := by
  cases z with
  | none => exact fun c hc => absurd hc List.not_mem_nil
  | some z => exact ofInt_separated z

/-- A number that is copied to zeros is read back. -/
private theorem strtol_memcpy {z : ℤ} {n : ℕ} (h : (Decimal.ofInt z).length < n) :
    strtol (Decimal.ofInt z ++ zeros (n - (Decimal.ofInt z).length)) = .ok z := by
  rw [zeros_of_pos (Nat.sub_pos_of_lt h), strtol_ofInt]

/-- What a field leaves in `filter_by`. -/
def marked (z : Option ℤ) (bit filterBy : UInt8) : UInt8 :=
  if z.isSome then filterBy ||| bit else filterBy

private theorem numberField_numeral {z : Option ℤ} {n : ℕ} (h : (numeral z).length < n)
    (bit filterBy : UInt8) :
    ∃ arr, numberField strtol (zeros n) (numeral z) 0 bit filterBy =
      .ok (z.getD 0, arr, marked z bit filterBy) := by
  cases z with
  | none => exact ⟨_, rfl⟩
  | some z =>
    rw [numeral] at h
    refine ⟨Decimal.ofInt z ++ zeros (n - (Decimal.ofInt z).length), ?_⟩
    rw [numberField, numeral, if_neg (Decimal.ofInt_ne_nil z), memcpy_zeros (le_of_lt h),
      ok_bind, strtol_memcpy h]
    rfl

/-- Where as much is cleared as was written, the next field finds zeros again. -/
private theorem numberField_cleared {z : Option ℤ} {n k : ℕ} (h : (numeral z).length < n)
    (hlen : (numeral z).length ≤ k) (hk : z.isSome → k ≤ n) (bit filterBy : UInt8) :
    numberField strtol (zeros n) (numeral z) k bit filterBy =
      .ok (z.getD 0, zeros n, marked z bit filterBy) := by
  cases z with
  | none => rfl
  | some z =>
    rw [numeral] at h hlen
    rw [numberField, numeral, if_neg (Decimal.ofInt_ne_nil z), memcpy_zeros (le_of_lt h),
      ok_bind, strtol_memcpy h, ok_bind, clear_memcpy hlen (hk rfl)]
    rfl

/-- **A line is read field by field.** -/
theorem parseRule_fields {sz : Sizes} {req name rest : List Char} {p d s dp sp : Option ℤ}
    (hsz : sz.EnoughFor dp) (hne : name ≠ []) (hname : ∀ c ∈ name, c ≠ ':' ∧ c ≠ nul)
    (hp : (numeral p).length ≤ 3) (hd : (numeral d).length ≤ 11) (hs : (numeral s).length ≤ 11)
    (hdp : (numeral dp).length ≤ 5) (hsp : (numeral sp).length ≤ 5)
    (hreq : req.drop 2 = name ++ ':' :: (numeral p ++ ':' :: (numeral d ++ ':' :: (numeral s ++
      ':' :: (numeral dp ++ ':' :: (numeral sp ++ nul :: rest)))))) :
    parseRule strtol sz req = .ok (some (.createRule name (createFilterSpecs
      (marked sp filterBySrcPort (marked dp filterByDstPort (marked s filterBySrcAddr
        (marked d filterByDstAddr (marked p filterByL4Proto 0)))))
      (UInt32.ofInt (d.getD 0)) (UInt32.ofInt (s.getD 0)) (UInt16.ofInt (dp.getD 0))
      (UInt16.ofInt (sp.getD 0)) (UInt8.ofInt (p.getD 0))))) := by
  obtain ⟨hproto, haddr, hport, hcleared⟩ := hsz
  obtain ⟨h₀, hreq⟩ := field_of_drop hname (.inl rfl) hreq
  obtain ⟨h₁, hreq⟩ := field_of_drop (numeral_separated p) (.inl rfl) hreq
  obtain ⟨h₂, hreq⟩ := field_of_drop (numeral_separated d) (.inl rfl) hreq
  obtain ⟨h₃, hreq⟩ := field_of_drop (numeral_separated s) (.inl rfl) hreq
  obtain ⟨h₄, hreq⟩ := field_of_drop (numeral_separated dp) (.inl rfl) hreq
  obtain ⟨h₅, -⟩ := field_of_drop (numeral_separated sp) (.inr rfl) hreq
  obtain ⟨_, hproto⟩ :=
    numberField_numeral (show (numeral p).length < sz.proto by omega) filterByL4Proto 0
  have hdaddr := numberField_cleared (show (numeral d).length < sz.addr by omega)
    (show (numeral d).length ≤ 16 by omega) (fun _ => haddr) filterByDstAddr
    (marked p filterByL4Proto 0)
  obtain ⟨_, hsaddr⟩ := numberField_numeral (show (numeral s).length < sz.addr by omega)
    filterBySrcAddr (marked d filterByDstAddr (marked p filterByL4Proto 0))
  have hdport := numberField_cleared (show (numeral dp).length < sz.port by omega)
    (show (numeral dp).length ≤ 7 by omega) hcleared filterByDstPort
    (marked s filterBySrcAddr (marked d filterByDstAddr (marked p filterByL4Proto 0)))
  obtain ⟨_, hsport⟩ := numberField_numeral (show (numeral sp).length < sz.port by omega)
    filterBySrcPort (marked dp filterByDstPort
      (marked s filterBySrcAddr (marked d filterByDstAddr (marked p filterByL4Proto 0))))
  rw [parseRule, h₀, ok_bind]
  dsimp only
  rw [if_neg hne, h₁, ok_bind]
  dsimp only
  rw [hproto, ok_bind, h₂, ok_bind]
  dsimp only
  rw [hdaddr, ok_bind, h₃, ok_bind]
  dsimp only
  rw [hsaddr, ok_bind, h₄, ok_bind]
  dsimp only
  rw [hdport, ok_bind, h₅, ok_bind]
  dsimp only
  rw [hsport, ok_bind]
  rfl

/-! ### The lengths of the fields -/

private theorem length_protocol_le (p : Option Protocol) :
    (numeral (p.map fun p => p.number.toNat)).length ≤ 3 := by
  rcases p with _ | _ | _ | _ <;> decide

private theorem length_printed_le (ip : Option Ipv4) :
    (numeral (ip.map Ipv4.printed)).length ≤ 11 := by
  cases ip with
  | none => exact Nat.zero_le _
  | some ip =>
    refine Decimal.length_ofInt_le (k := 10) (by decide) ?_
    have hlow := ip.sAddr.toInt32.le_toInt
    have hhigh := ip.sAddr.toInt32.toInt_lt
    rw [Ipv4.printed]
    omega

private theorem length_printedPort_le (p : Option UInt16) :
    (numeral (p.map printedPort)).length ≤ 5 := by
  cases p with
  | none => exact Nat.zero_le _
  | some p =>
    have hlt := (htons p).toNat_lt
    rw [Option.map_some, numeral, printedPort, Decimal.ofInt_natCast]
    exact (Decimal.length_ofNat_le_iff (by decide)).mpr (by omega)

/-! ### Requests -/

/-- The numbers in the fields are those of the specification. -/
private theorem MkRule.specs_eq (r : MkRule) :
    createFilterSpecs
      (marked (r.sport.map printedPort) filterBySrcPort
        (marked (r.dport.map printedPort) filterByDstPort
          (marked (r.saddr.map Ipv4.printed) filterBySrcAddr
            (marked (r.daddr.map Ipv4.printed) filterByDstAddr
              (marked (r.protocol.map fun p => (p.number.toNat : ℤ)) filterByL4Proto 0)))))
      (UInt32.ofInt ((r.daddr.map Ipv4.printed).getD 0))
      (UInt32.ofInt ((r.saddr.map Ipv4.printed).getD 0))
      (UInt16.ofInt ((r.dport.map printedPort).getD 0))
      (UInt16.ofInt ((r.sport.map printedPort).getD 0))
      (UInt8.ofInt ((r.protocol.map fun p => (p.number.toNat : ℤ)).getD 0)) = r.specs := by
  have haddr : ∀ ip : Option Ipv4,
      UInt32.ofInt ((ip.map Ipv4.printed).getD 0) = (ip.map Ipv4.sAddr).getD 0 := by
    rintro (_ | ip)
    · rfl
    · exact uint32_ofInt_toInt32 ip.sAddr
  have hport : ∀ p : Option UInt16,
      UInt16.ofInt ((p.map printedPort).getD 0) = (p.map htons).getD 0 := by
    rintro (_ | p)
    · rfl
    · exact uint16_ofInt_toNat (htons p)
  have hproto : ∀ p : Option Protocol,
      UInt8.ofInt ((p.map fun p => (p.number.toNat : ℤ)).getD 0) =
        (p.map Protocol.number).getD 0 := by
    rintro (_ | p)
    · rfl
    · exact uint8_ofInt_toNat p.number
  have hfilterBy : ∀ z : Option ℤ, ∀ bit filterBy : UInt8,
      marked z bit filterBy = filterBy ||| (if z.isSome then bit else 0) := by
    rintro (_ | z) bit filterBy
    · exact UInt8.or_zero.symm
    · rfl
  simp only [haddr, hport, hproto, hfilterBy, Option.isSome_map, UInt8.zero_or]
  rfl

/-- The kernel finds the zeros behind what the shell wrote, whatever it is. -/
theorem procfileWrite_eq (sz : Sizes) {line : List Char} (h : line.length ≤ maxRegistryLine) :
    procfileWrite sz (line ++ zeros (maxRegistryLine - line.length)) =
      (parseRequest sz (line ++ zeros (maxRegistryLine - line.length))).map
        fun request => ((maxRegistryLine : ℤ), request) := by
  have hlen : (line ++ zeros (maxRegistryLine - line.length)).length = maxRegistryLine := by
    rw [List.length_append, length_zeros]
    omega
  have hcopy : memcpy (zeros maxRegistryLine) (line ++ zeros (maxRegistryLine - line.length)) =
      .ok (line ++ zeros (maxRegistryLine - line.length)) := by
    rw [memcpy_zeros (le_of_eq hlen), hlen, Nat.sub_self]
    exact congrArg _ (List.append_nil _)
  rw [procfileWrite, procfileWriteWith, if_neg (by omega), hcopy, hlen]
  rfl

theorem MkRule.parseRequest_line {sz : Sizes} {r : MkRule} (hsz : sz.EnoughFor r.dport)
    (hne : r.interceptorName ≠ []) (hname : ∀ c ∈ r.interceptorName, c ≠ ':' ∧ c ≠ nul)
    (h : r.line.length < maxRegistryLine) :
    parseRequest sz (r.line ++ zeros (maxRegistryLine - r.line.length)) =
      .ok (some (.createRule r.interceptorName r.specs)) := by
  have hreq : (r.line ++ zeros (maxRegistryLine - r.line.length)).drop 2 =
      r.interceptorName ++ ':' :: (numeral (r.protocol.map fun p => (p.number.toNat : ℤ)) ++ ':' ::
        (numeral (r.daddr.map Ipv4.printed) ++ ':' :: (numeral (r.saddr.map Ipv4.printed) ++ ':' ::
        (numeral (r.dport.map printedPort) ++ ':' :: (numeral (r.sport.map printedPort) ++ nul ::
        zeros (maxRegistryLine - r.line.length - 1)))))) := by
    rw [zeros_of_pos (Nat.sub_pos_of_lt h)]
    simp [line, fields, List.intercalate, List.intersperse]
  have hsz' : sz.EnoughFor (r.dport.map printedPort) :=
    ⟨hsz.proto, hsz.addr, hsz.port, fun h => hsz.cleared (by simpa using h)⟩
  rw [← r.specs_eq, ← parseRule_fields hsz' hne hname (length_protocol_le _) (length_printed_le _)
    (length_printed_le _) (length_printedPort_le _) (length_printedPort_le _) hreq]
  rfl

/-- The line for the removal of a rule. -/
def rmruleLine (n : ℕ) : List Char := ['U', ':'] ++ Decimal.ofNat n

private theorem length_ruleid_le {n : ℕ} (h : n < 2 ^ 31) : (Decimal.ofNat n).length ≤ 10 :=
  (Decimal.length_ofNat_le_iff (by decide)).mpr (by omega)

theorem length_rmruleLine_lt {n : ℕ} (h : n < 2 ^ 31) :
    (rmruleLine n).length < maxRegistryLine := by
  have hlen := length_ruleid_le h
  have hline : (rmruleLine n).length = 2 + (Decimal.ofNat n).length := List.length_append
  exact lt_of_le_of_lt (show (rmruleLine n).length ≤ 12 by omega) (by decide)

theorem writeToProc_rmrule (name : List Char) {n : ℕ} (h : n < 2 ^ 31) :
    writeToProc 'U' name none none none none none (some (Decimal.ofNat n)) =
      .ok (some (rmruleLine n ++ zeros (maxRegistryLine - (rmruleLine n).length))) := by
  have hput : put ['U', ':'] (itoa n) = .ok (rmruleLine n) := by
    have hfits := le_of_lt (length_rmruleLine_lt h)
    rw [rmruleLine, List.length_append] at hfits
    rw [put, itoa, Decimal.ofInt_natCast, if_pos hfits, rmruleLine]
  rw [writeToProc, if_neg (by decide), if_pos rfl, atoi_ofNat h, hput]
  rfl

theorem parseRequest_rmrule {sz : Sizes} (hruleid : 11 ≤ sz.ruleid) {n : ℕ} (h : n < 2 ^ 31) :
    parseRequest sz (rmruleLine n ++ zeros (maxRegistryLine - (rmruleLine n).length)) =
      .ok (some (.removeRule (UInt32.ofNat n))) := by
  have hlen := length_ruleid_le h
  have hreq : (rmruleLine n ++ zeros (maxRegistryLine - (rmruleLine n).length)).drop 2 =
      Decimal.ofInt n ++ nul :: zeros (maxRegistryLine - (rmruleLine n).length - 1) := by
    rw [Decimal.ofInt_natCast, zeros_of_pos (Nat.sub_pos_of_lt (length_rmruleLine_lt h))]
    rfl
  obtain ⟨hfield, -⟩ := field_of_drop (ofInt_separated n) (.inr rfl) hreq
  have hshort : (Decimal.ofInt n).length < sz.ruleid := by
    rw [Decimal.ofInt_natCast]
    omega
  have hparse : parseRuleId strtol sz
      (rmruleLine n ++ zeros (maxRegistryLine - (rmruleLine n).length)) =
      .ok (some (.removeRule (UInt32.ofInt n))) := by
    rw [parseRuleId, hfield, ok_bind]
    dsimp only
    rw [if_neg (Decimal.ofInt_ne_nil n), memcpy_zeros (le_of_lt hshort), ok_bind,
      strtol_memcpy hshort]
    rfl
  have hid : UInt32.ofInt n = UInt32.ofNat n := by
    have hmod : (n % 2 ^ 32 : ℤ).toNat = n := by omega
    rw [UInt32.ofInt, hmod]
  rw [← hid, ← hparse]
  rfl

/-! ### Main result -/

/-- **Requests survive the text protocol.** With arrays that are large enough, `create_rule` is
called with the name and the criteria that `mkrule` was given, for every line that has room for the
zero behind it, and `remove_rule` with the number that `rmrule` was given. -/
theorem requests_survive_proc {sz : Sizes} (hsz : sz.Enough) :
    (∀ r : MkRule, r.interceptorName ≠ [] → (∀ c ∈ r.interceptorName, c ≠ ':' ∧ c ≠ nul) →
      r.line.length < maxRegistryLine →
      ∃ buffer, r.write = .ok (some buffer) ∧
        procfileWrite sz buffer =
          .ok (maxRegistryLine, some (.createRule r.interceptorName r.specs))) ∧
    (∀ name, ∀ n < 2 ^ 31, ∃ buffer,
      writeToProc 'U' name none none none none none (some (Decimal.ofNat n)) = .ok (some buffer) ∧
        procfileWrite sz buffer = .ok (maxRegistryLine, some (.removeRule (UInt32.ofNat n)))) := by
  refine ⟨?_, ?_⟩
  · intro r hne hname hline
    refine ⟨_, r.write_eq hline, ?_⟩
    rw [procfileWrite_eq sz (le_of_lt hline), r.parseRequest_line (hsz.enoughFor _) hne hname hline]
    rfl
  · intro name n hn
    refine ⟨_, writeToProc_rmrule name hn, ?_⟩
    rw [procfileWrite_eq sz (le_of_lt (length_rmruleLine_lt hn)), parseRequest_rmrule hsz.ruleid hn]
    rfl

/-- A rule for datagrams from 192.168.0.200 to port 57843. -/
def aggregationRequest : MkRule where
  interceptorName := "aggregation".toList
  protocol := some .udp
  daddr := none
  saddr := some ⟨192, 168, 0, 200⟩
  dport := some 57843
  sport := none

/-- `port_s` with one byte more. -/
theorem requests_survive_proc_aggregation :
    Sizes.Enough { procRegistrySizes with port := 7 } ∧
    (∃ buffer, aggregationRequest.write = .ok (some buffer) ∧
      procfileWrite { procRegistrySizes with port := 7 } buffer =
        .ok (maxRegistryLine, some (.createRule "aggregation".toList aggregationRequest.specs))) ∧
    ∃ buffer, writeToProc 'U' [] none none none none none (some (Decimal.ofNat 3)) =
        .ok (some buffer) ∧
      procfileWrite { procRegistrySizes with port := 7 } buffer =
        .ok (maxRegistryLine, some (.removeRule 3)) := by
  have hsz : Sizes.Enough { procRegistrySizes with port := 7 } :=
    ⟨by decide, by decide, by decide, by decide⟩
  have hname : ∀ c ∈ "aggregation".toList, c ≠ ':' ∧ c ≠ nul := by simp [nul]
  obtain ⟨hmkrule, hrmrule⟩ := requests_survive_proc hsz
  exact ⟨hsz, hmkrule aggregationRequest (by decide) hname (by decide +kernel),
    hrmrule [] 3 (by decide)⟩

end MiaVita.Framework
