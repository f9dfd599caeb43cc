import MiaVita.FredFramework.Chains
import MiaVita.FredFramework.InterceptorShell
import MiaVita.FredFramework.ProcCache

/-!
# The text of the list (`fred_framework`, `proc_entry.c`)

`View` is what `/proc/interceptor_list` has to show, and `View.render` the text for it. The code
appends the text in blocks, `View.blocks`, and asks for room in front of most of them: for 39 bytes
where it appends 41, and for 68 in front of each filter, which has 57 to 70.

`room_blocks` is what it asks for on the whole: as many bytes as the text has, the last filter
counted with 68.
-/

namespace MiaVita.Framework

open CText

/-! ### The texts -/

/-- `FILTER_PRIO_FIRST` -/
abbrev filterPrioFirst : UInt8 := 0xff

/-- `FILTER_PRIO_UNSPECIFIED` -/
abbrev filterPrioUnspecified : UInt8 := 0x7f

/-- `FILTER_PRIO_LAST` -/
abbrev filterPrioLast : UInt8 := 0x00

/-- The first line. -/
def header : List Char := "List of available interceptors and registered filters:\n".toList

/-- The line in front of the filters of a rule. -/
def heading : List Char := "\tPrio\tAt\tProtocol\tDst\t\tSrc\t\tDport\t\tSport\n".toList

/-- The priority of a filter. -/
def priorityText (priority : UInt8) : List Char :=
  if priority = filterPrioFirst then "MAX\t".toList
  else if priority = filterPrioLast then "MIN\t".toList
  else if priority = filterPrioUnspecified then "USP\t".toList
  else "UNK\t".toList

/-- The place of a filter; nothing is appended for one that is not valid. -/
def filterAtPieces (filterAt : UInt8) : List (List Char) :=
  if filterAt = filterAtLocalIn then ["Local in\t".toList]
  else if filterAt = filterAtLocalOut then ["Local out\t".toList]
  else if filterAt = filterAtFwd then ["Forward\t".toList]
  else if filterAt = filterAtPreRt then ["Pre rt\t".toList]
  else if filterAt = filterAtPostRt then ["Post rt\t".toList]
  else []

/-- The protocol of a specification, whether or not it is looked for. -/
def protocolText (protocol : UInt8) : List Char :=
  if protocol.toNat = ipprotoUdp then "UDP\t\t".toList
  else if protocol.toNat = agregatedApplicationEncapUdpProto then "APPAGG\t".toList
  else if protocol.toNat = agregatedIpEncapIpProto then "NETAGG\t".toList
  else "--\t\t".toList

/-- A text in an array of `n` zeros. -/
def padded (n : ℕ) (text : List Char) : List Char := text ++ zeros (n - text.length)

/-- `NIPQUAD`: the four bytes of an address as they are in memory. -/
def nipquad (addr : UInt32) : Ipv4 :=
  ⟨UInt8.ofNat addr.toNat, UInt8.ofNat (addr.toNat / 2 ^ 8), UInt8.ofNat (addr.toNat / 2 ^ 16),
    UInt8.ofNat (addr.toNat / 2 ^ 24)⟩

/-- `ntohs`, on a little-endian processor. -/
def ntohs (n : UInt16) : UInt16 := htons n

/-- An address has room in `ip[17]`, with the tabulator and the zero behind it. -/
theorem length_dotted_lt (ip : Ipv4) : (ip.dotted ++ ['\t']).length < 17 := by
  have hoctet : ∀ b : UInt8, (Decimal.ofNat b.toNat).length ≤ 3 := fun b =>
    (Decimal.length_ofNat_le_iff (by decide)).mpr (lt_trans b.toNat_lt (by decide))
  have ha := hoctet ip.a
  have hb := hoctet ip.b
  have hc := hoctet ip.c
  have hd := hoctet ip.d
  simp only [Ipv4.dotted, List.intercalate, List.intersperse, List.flatten_cons, List.flatten_nil,
    List.length_append, List.length_cons, List.length_nil]
  omega

/-- A port has room in `port[7]`, with the tabulator and the zero behind it. -/
theorem length_port_lt (p : UInt16) : (Decimal.ofNat p.toNat ++ ['\t']).length < 7 := by
  have hdigits : (Decimal.ofNat p.toNat).length ≤ 5 :=
    (Decimal.length_ofNat_le_iff (by decide)).mpr (lt_trans p.toNat_lt (by decide))
  rw [List.length_append, List.length_singleton]
  omega

/-- The destination address, in `ip[17]`. Of the other text, three bytes are copied. -/
def dstText (sp : FilterSpecs) : List Char :=
  padded 17 (if sp.filterBy &&& filterByDstAddr = 0 then "--\t".toList
    else (nipquad sp.dstAddr).dotted ++ ['\t'])

/-- The source address, in `ip[17]`. -/
def srcText (sp : FilterSpecs) : List Char :=
  padded 17 (if sp.filterBy &&& filterBySrcAddr = 0 then "--\t\t".toList
    else (nipquad sp.srcAddr).dotted ++ ['\t'])

/-- The destination port, in `port[7]`. -/
def dportText (sp : FilterSpecs) : List Char :=
  padded 7 (if sp.filterBy &&& filterByDstPort = 0 then "--\t".toList
    else Decimal.ofNat (ntohs sp.dstPort).toNat ++ ['\t'])

/-- The source port, in `port[7]`. -/
def sportText (sp : FilterSpecs) : List Char :=
  padded 7 (if sp.filterBy &&& filterBySrcPort = 0 then "--".toList
    else Decimal.ofNat (ntohs sp.srcPort).toNat)

/-- What is appended for a filter, up to its specification. -/
def placePieces (f : Filter) : List (List Char) :=
  priorityText f.priority :: filterAtPieces f.filterAt

/-- What is appended for the specification of a filter. -/
def specsPieces (sp : FilterSpecs) : List (List Char) :=
  [protocolText sp.protocol, dstText sp, srcText sp, dportText sp, sportText sp, ['\n']]

/-! ### What there is to show -/

/-- A rule: its id, the name of its interceptor and its filters. -/
structure RuleView where
  id : UInt32
  interceptor : List Char
  filters : List (Filter × FilterSpecs)

/-- The interceptors and the rules, in the order of the lists. -/
structure View where
  interceptors : List (List Char)
  rules : List RuleView

/-- The line of a filter, without the tabulator in front of it. -/
def renderFilter (x : Filter × FilterSpecs) : List Char :=
  (placePieces x.1 ++ specsPieces x.2).flatten

/-- The lines of a rule. -/
def RuleView.render (r : RuleView) : List Char :=
  ['\n'] ++ ">> Rule ".toList ++ Decimal.ofNat r.id.toNat ++ " for ".toList ++ r.interceptor ++
    ['\n'] ++ heading ++ r.filters.flatMap fun x => '\t' :: renderFilter x

/-- **The text for the current state**: the first line, the interceptors, the rules. -/
def View.render (v : View) : List Char :=
  header ++ (v.interceptors.flatMap fun name => "* ".toList ++ name ++ ['\n']) ++
    v.rules.flatMap RuleView.render

/-! ### The blocks -/

/-- The line of an interceptor. -/
def interceptorBlock (name : List Char) : Block :=
  ⟨name.length + 3, ["* ".toList, name, ['\n']]⟩

/-- The first line of a rule. -/
def ruleBlock (ruleid name : List Char) : Block :=
  ⟨name.length + 15 + ruleid.length,
    [['\n'], ">> Rule ".toList, ruleid, " for ".toList, name, ['\n']]⟩

/-- The second line of a rule: 39 bytes are asked for, and 41 appended. -/
def headingBlock : Block := ⟨39, [heading]⟩

/-- The tabulator in front of a filter, for which nobody asks. -/
def tabBlock : Block := ⟨0, [['\t']]⟩

/-- The line of a filter. -/
def filterBlock (x : Filter × FilterSpecs) : Block := ⟨68, placePieces x.1 ++ specsPieces x.2⟩

/-- The lines of the filters. -/
def filterBlocks (fs : List (Filter × FilterSpecs)) : List Block :=
  fs.flatMap fun x => [tabBlock, filterBlock x]

/-- The lines of a rule. -/
def ruleBlocks (r : RuleView) : List Block :=
  ruleBlock (Decimal.ofNat r.id.toNat) r.interceptor :: headingBlock :: filterBlocks r.filters

/-- Everything behind the first line. -/
def View.blocks (v : View) : List Block :=
  v.interceptors.map interceptorBlock ++ v.rules.flatMap ruleBlocks

/-! ### The room for a text -/

private theorem text_headingBlock : headingBlock.text = heading := List.append_nil _

private theorem text_interceptorBlock (name : List Char) :
    (interceptorBlock name).text = "* ".toList ++ name ++ ['\n'] := by
  rw [List.append_assoc]
  rfl

private theorem text_ruleBlock (ruleid name : List Char) :
    (ruleBlock ruleid name).text =
      ['\n'] ++ ">> Rule ".toList ++ ruleid ++ " for ".toList ++ name ++ ['\n'] := by
  simp only [List.append_assoc]
  rfl

private theorem text_filterBlocks_cons (x : Filter × FilterSpecs)
    (fs : List (Filter × FilterSpecs)) :
    (filterBlocks (x :: fs)).flatMap Block.text =
      '\t' :: (renderFilter x ++ (filterBlocks fs).flatMap Block.text) := rfl

private theorem text_filterBlocks (fs : List (Filter × FilterSpecs)) :
    (filterBlocks fs).flatMap Block.text = fs.flatMap fun x => '\t' :: renderFilter x := by
  induction fs with
  | nil => rfl
  | cons x fs ih =>
    rw [text_filterBlocks_cons, ih]
    rfl

private theorem text_ruleBlocks (r : RuleView) : (ruleBlocks r).flatMap Block.text = r.render := by
  rw [ruleBlocks, List.flatMap_cons, List.flatMap_cons, text_filterBlocks, text_ruleBlock,
    text_headingBlock, RuleView.render, List.append_assoc _ heading]

/-- The blocks make up the text. -/
theorem text_blocks (v : View) : header ++ v.blocks.flatMap Block.text = v.render := by
  rw [View.blocks, View.render, List.flatMap_append, List.flatMap_map, List.flatMap_assoc,
    List.append_assoc]
  simp only [text_ruleBlocks, text_interceptorBlock]

/-- What the last filter has less than the 68 bytes that are asked for. -/
def filterSlack (fs : List (Filter × FilterSpecs)) : ℕ :=
  match fs.getLast? with
  | some x => 68 - (renderFilter x).length
  | none => 0

/-- The same for the text as a whole, which may end with a filter. -/
def slack (rules : List RuleView) : ℕ :=
  match rules.getLast? with
  | some r => filterSlack r.filters
  | none => 0

private theorem le_length_padded (n : ℕ) (t : List Char) : n ≤ (padded n t).length := by
  rw [padded, List.length_append, length_zeros]
  omega

private theorem le_length_priorityText (p : UInt8) : 4 ≤ (priorityText p).length := by
  rw [priorityText]
  split_ifs <;> decide

private theorem le_length_protocolText (p : UInt8) : 4 ≤ (protocolText p).length := by
  rw [protocolText]
  split_ifs <;> decide

private theorem le_length_renderFilter (x : Filter × FilterSpecs) :
    57 ≤ (renderFilter x).length := by
  have hpriority := le_length_priorityText x.1.priority
  have hprotocol := le_length_protocolText x.2.protocol
  have hdst : 17 ≤ (dstText x.2).length := le_length_padded 17 _
  have hsrc : 17 ≤ (srcText x.2).length := le_length_padded 17 _
  have hdport : 7 ≤ (dportText x.2).length := le_length_padded 7 _
  have hsport : 7 ≤ (sportText x.2).length := le_length_padded 7 _
  rw [renderFilter, placePieces, specsPieces]
  simp only [List.flatten_append, List.flatten_cons, List.flatten_nil, List.length_append,
    List.length_cons, List.length_nil]
  omega

private theorem room_of_le {b : Block} {bs : List Block} (h : b.need ≤ b.text.length + room bs) :
    room (b :: bs) = b.text.length + room bs := max_eq_right h

private theorem length_ruleBlock (ruleid name : List Char) :
    (ruleBlock ruleid name).text.length = (ruleBlock ruleid name).need := by
  have hrule : ">> Rule ".toList.length = 8 := by decide
  have hfor : " for ".toList.length = 5 := by decide
  have hneed : (ruleBlock ruleid name).need = name.length + 15 + ruleid.length := rfl
  rw [text_ruleBlock, hneed]
  simp only [List.length_append, hrule, hfor, List.length_singleton]
  omega

private theorem length_interceptorBlock (name : List Char) :
    (interceptorBlock name).text.length = (interceptorBlock name).need := by
  have hstar : "* ".toList.length = 2 := by decide
  have hneed : (interceptorBlock name).need = name.length + 3 := rfl
  rw [text_interceptorBlock, hneed]
  simp only [List.length_append, hstar, List.length_singleton]
  omega

private theorem length_filterBlocks_cons (x : Filter × FilterSpecs)
    (fs : List (Filter × FilterSpecs)) :
    ((filterBlocks (x :: fs)).flatMap Block.text).length =
      1 + (renderFilter x).length + ((filterBlocks fs).flatMap Block.text).length := by
  rw [text_filterBlocks_cons, List.length_cons, List.length_append]
  omega

/-- In front of something else, a filter asks for less than is needed behind it. -/
private theorem room_filterBlocks_append (fs : List (Filter × FilterSpecs)) {bs : List Block}
    (h : 11 ≤ room bs) :
    room (filterBlocks fs ++ bs) = ((filterBlocks fs).flatMap Block.text).length + room bs := by
  induction fs with
  | nil => exact (Nat.zero_add _).symm
  | cons x fs ih =>
    have hfilter := le_length_renderFilter x
    have hneed : (filterBlock x).need = 68 := rfl
    have htext : (filterBlock x).text = renderFilter x := rfl
    have htab : tabBlock.text.length = 1 := rfl
    change room (tabBlock :: filterBlock x :: (filterBlocks fs ++ bs)) = _
    rw [room_of_le (Nat.zero_le _), room_of_le (by rw [ih, htext, hneed]; omega), ih, htext, htab,
      length_filterBlocks_cons]
    omega

private theorem room_filterBlocks (fs : List (Filter × FilterSpecs)) :
    room (filterBlocks fs) =
      ((filterBlocks fs).flatMap Block.text).length + filterSlack fs := by
  rcases List.eq_nil_or_concat fs with rfl | ⟨fs, x, rfl⟩
  · rfl
  · have happend : filterBlocks (fs ++ [x]) = filterBlocks fs ++ filterBlocks [x] :=
      List.flatMap_append
    have hroom : room (filterBlocks [x]) = 1 + max 68 (renderFilter x).length := by
      change max 0 (1 + max 68 ((renderFilter x).length + 0)) = _
      omega
    have hslack : filterSlack (fs ++ [x]) = 68 - (renderFilter x).length := by
      rw [filterSlack, List.getLast?_concat]
    have hlength := length_filterBlocks_cons x []
    rw [List.concat_eq_append, happend, room_filterBlocks_append fs (by rw [hroom]; omega), hroom,
      List.flatMap_append, List.length_append, hlength, hslack]
    change _ = _ + (1 + (renderFilter x).length + 0) + _
    omega

private theorem room_ruleBlocks_append (r : RuleView) (bs : List Block) :
    room (ruleBlocks r ++ bs) =
      (ruleBlock (Decimal.ofNat r.id.toNat) r.interceptor).text.length + heading.length +
        room (filterBlocks r.filters ++ bs) := by
  have hneed : headingBlock.need = 39 := rfl
  have hheading : heading.length = 41 := by decide
  change room (ruleBlock _ _ :: headingBlock :: (filterBlocks r.filters ++ bs)) = _
  rw [room_of_le (by rw [length_ruleBlock]; omega),
    room_of_le (by rw [text_headingBlock, hheading, hneed]; omega), text_headingBlock,
    Nat.add_assoc]

private theorem length_ruleBlocks (r : RuleView) :
    ((ruleBlocks r).flatMap Block.text).length =
      (ruleBlock (Decimal.ofNat r.id.toNat) r.interceptor).text.length + heading.length +
        ((filterBlocks r.filters).flatMap Block.text).length := by
  rw [ruleBlocks, List.flatMap_cons, List.flatMap_cons, List.length_append, List.length_append,
    text_headingBlock, Nat.add_assoc]

private theorem room_rules_append (rules : List RuleView) {bs : List Block} (h : 11 ≤ room bs) :
    room (rules.flatMap ruleBlocks ++ bs) =
      ((rules.flatMap ruleBlocks).flatMap Block.text).length + room bs := by
  induction rules with
  | nil => exact (Nat.zero_add _).symm
  | cons r rules ih =>
    rw [List.flatMap_cons, List.append_assoc, room_ruleBlocks_append,
      room_filterBlocks_append r.filters (by rw [ih]; omega), ih, List.flatMap_append,
      List.length_append, length_ruleBlocks]
    omega

private theorem room_rules (rules : List RuleView) :
    room (rules.flatMap ruleBlocks) =
      ((rules.flatMap ruleBlocks).flatMap Block.text).length + slack rules := by
  rcases List.eq_nil_or_concat rules with rfl | ⟨rules, r, rfl⟩
  · rfl
  · have hrule : room (ruleBlocks r) =
        ((ruleBlocks r).flatMap Block.text).length + filterSlack r.filters := by
      have h := room_ruleBlocks_append r []
      rw [List.append_nil, List.append_nil, room_filterBlocks] at h
      rw [h, length_ruleBlocks]
      omega
    have hslack : slack (rules ++ [r]) = filterSlack r.filters := by
      rw [slack, List.getLast?_concat]
    have hheading : heading.length = 41 := by decide
    have hle : 11 ≤ room (ruleBlocks r) := by
      rw [hrule, length_ruleBlocks]
      omega
    rw [List.concat_eq_append, List.flatMap_append, List.flatMap_singleton,
      room_rules_append rules hle, hrule, List.flatMap_append, List.length_append, hslack,
      Nat.add_assoc]

/-- **What a rebuild asks for.** -/
theorem room_blocks (v : View) :
    header.length + room v.blocks = v.render.length + slack v.rules := by
  have hinterceptors : ∀ names : List (List Char),
      room (names.map interceptorBlock ++ v.rules.flatMap ruleBlocks) =
        ((names.map interceptorBlock).flatMap Block.text).length +
          room (v.rules.flatMap ruleBlocks) := by
    intro names
    induction names with
    | nil => exact (Nat.zero_add _).symm
    | cons name names ih =>
      rw [List.map_cons, List.cons_append, room_of_le (by rw [length_interceptorBlock]; omega), ih,
        List.flatMap_cons, List.length_append, Nat.add_assoc]
  rw [View.blocks, hinterceptors, room_rules, ← text_blocks, View.blocks, List.flatMap_append,
    List.length_append, List.length_append]
  omega

/-- There is room for the ids and for the text. -/
structure View.Fits (v : View) : Prop where
  ids : ∀ r ∈ v.rules, r.id.toNat < 10 ^ 9
  length : v.render.length + slack v.rules ≤ 1024

instance (v : View) : Decidable v.Fits :=
  decidable_of_iff ((∀ r ∈ v.rules, r.id.toNat < 10 ^ 9) ∧
      v.render.length + slack v.rules ≤ 1024)
    ⟨fun h => ⟨h.1, h.2⟩, fun h => ⟨h.ids, h.length⟩⟩

end MiaVita.Framework
