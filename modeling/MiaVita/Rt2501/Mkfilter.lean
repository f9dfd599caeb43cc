import MiaVita.FredFramework.InterceptorShell
import MiaVita.Rt2501.ProcFilters

/-!
# The command `mkfilter` (`rt2501`, `user/mkfilter.c`, `user/proc_write.c`)

`mkfilter` takes addresses and ports in pairs of an option and a value, and
`write_to_proc_entry` puts them into a `filter`, which it writes to `/proc/synch_filters` behind the
letter `R` and a zero. The driver copies the 16 bytes to a block of its own.

The two programs agree on the layout, the two functions do not agree on the order: the destination
port is the fourth parameter of `write_to_proc_entry`, and `mkfilter` passes the source port there.
So every filter that is installed has its ports exchanged (`mkfilter_installs_iff`), which goes
unnoticed only if they are equal.
-/

namespace MiaVita.Rt2501

open Bytes Memory Fallible
open Framework (Ipv4 inetPton atoi htons)

/-! ### The source -/

/-- `filter`, as the processor loads it. -/
structure FilterFields where
  proto : UInt8
  dstAddr : UInt32
  srcAddr : UInt32
  dstPort : UInt16
  srcPort : UInt16
  deriving DecidableEq

/-- The three bytes between the protocol and the first address. Nothing assigns them. -/
structure Padding where
  p₁ : UInt8
  p₂ : UInt8
  p₃ : UInt8

/-- A `filter` in memory. -/
def FilterFields.encode (f : FilterFields) (padding : Padding) : List UInt8 :=
  [f.proto, padding.p₁, padding.p₂, padding.p₃] ++ (le 4 f.dstAddr.toNat ++
    (le 4 f.srcAddr.toNat ++ (le 2 f.dstPort.toNat ++ le 2 f.srcPort.toNat)))

/-- The `filter` in a block of memory. -/
def filterAt (block : List UInt8) : FilterFields where
  proto := block[0]?.getD 0
  dstAddr := UInt32.ofNat (leVal (slice block 4 4))
  srcAddr := UInt32.ofNat (leVal (slice block 8 4))
  dstPort := UInt16.ofNat (leVal (slice block 12 2))
  srcPort := UInt16.ofNat (leVal (slice block 14 2))

/-- `write_to_proc_entry`: what is written to the file, if it can be opened. -/
def writeToProcEntry (cmd : Char) (daddr saddr : UInt32) (dport sport : UInt16) (index : UInt8)
    (padding : Padding) : Option (List UInt8) :=
  if cmd = 'R' then
    let buff := List.replicate (2 + sizeofFilter) 0
    let buff := (buff.set 0 0x52).set 2 0x3a
    let f : FilterFields := ⟨17, daddr, saddr, dport, sport⟩
    some (patch buff 2 (f.encode padding))
  else if cmd = 'U' then
    let buff := List.replicate 3 0
    let buff := (buff.set 0 0x55).set 2 0x3a
    some (patch buff 2 [index])
  else none

/-- The variables of `main`. -/
structure MkfilterArgs where
  daddr : UInt32
  saddr : UInt32
  dport : UInt16
  sport : UInt16

/-- `inet_pton(AF_INET, …)`, which leaves the variable alone if the text is no address. This is not
an error: the value that is returned then is zero, and only negative ones are looked at. -/
def setAddr (addr : UInt32) (text : List Char) : UInt32 :=
  match inetPton text with
  | some ip => ip.sAddr
  | none => addr

/-- `htons(atoi(…))`. -/
def portOf (text : List Char) : UInt16 := htons (UInt16.ofInt (atoi text))

/-- The loop over the arguments. Behind the last one there is a null pointer. -/
def mkfilterLoop : List (List Char) → MkfilterArgs → Except Fault MkfilterArgs
  | [], a => .ok a
  | [arg], a =>
    if arg ∈ ["-da".toList, "-sa".toList, "-dp".toList, "-sp".toList] then .error .null else .ok a
  | arg :: value :: args, a =>
    if arg = "-da".toList then mkfilterLoop args { a with daddr := setAddr a.daddr value }
    else if arg = "-sa".toList then mkfilterLoop args { a with saddr := setAddr a.saddr value }
    else if arg = "-dp".toList then mkfilterLoop args { a with dport := portOf value }
    else if arg = "-sp".toList then mkfilterLoop args { a with sport := portOf value }
    else mkfilterLoop (value :: args) a

/-- `main` of `mkfilter`, on the arguments behind the name of the command: its exit status, and what
is written to the file. -/
def mkfilter (padding : Padding) (args : List (List Char)) :
    Except Fault (ℤ × Option (List UInt8)) := do
  if args = [] then return (1, none)
  else do
    let a ← mkfilterLoop args ⟨0, 0, 0, 0⟩
    return (0, writeToProcEntry 'R' a.daddr a.saddr a.sport a.dport 0 padding)

/-! ### What is asked for -/

/-- An option with a valid value. -/
inductive FilterOption where
  | da (text : List Char) (ip : Ipv4) (valid : inetPton text = some ip)
  | sa (text : List Char) (ip : Ipv4) (valid : inetPton text = some ip)
  | dp (text : List Char) (port : UInt16) (valid : atoi text = port.toNat)
  | sp (text : List Char) (port : UInt16) (valid : atoi text = port.toNat)

namespace FilterOption

/-- The name of the option. -/
def name : FilterOption → List Char
  | da .. => "-da".toList
  | sa .. => "-sa".toList
  | dp .. => "-dp".toList
  | sp .. => "-sp".toList

/-- The two arguments. -/
def args : FilterOption → List (List Char)
  | da text .. => ["-da".toList, text]
  | sa text .. => ["-sa".toList, text]
  | dp text .. => ["-dp".toList, text]
  | sp text .. => ["-sp".toList, text]

/-- The destination address that is given, in network byte order; and so on. -/
def dstAddr? : FilterOption → Option UInt32
  | da _ ip _ => some ip.sAddr
  | _ => none

def srcAddr? : FilterOption → Option UInt32
  | sa _ ip _ => some ip.sAddr
  | _ => none

def dstPort? : FilterOption → Option UInt16
  | dp _ port _ => some (htons port)
  | _ => none

def srcPort? : FilterOption → Option UInt16
  | sp _ port _ => some (htons port)
  | _ => none

end FilterOption

/-- The value of a field that some options give, or 0. -/
def given {α : Type} [OfNat α 0] (field? : FilterOption → Option α) (os : List FilterOption) : α :=
  (os.findSome? field?).getD 0

/-- **The filter that is asked for.** -/
def askedFor (os : List FilterOption) : FilterFields where
  proto := 17
  dstAddr := given FilterOption.dstAddr? os
  srcAddr := given FilterOption.srcAddr? os
  dstPort := given FilterOption.dstPort? os
  srcPort := given FilterOption.srcPort? os

/-- A filter with its ports exchanged. -/
def FilterFields.exchanged (g : FilterFields) : FilterFields :=
  { g with dstPort := g.srcPort, srcPort := g.dstPort }

private theorem FilterFields.exchanged_eq_iff (g : FilterFields) :
    g.exchanged = g ↔ g.dstPort = g.srcPort := by
  obtain ⟨proto, dstAddr, srcAddr, dstPort, srcPort⟩ := g
  constructor
  · exact fun h => congrArg FilterFields.srcPort h
  · rintro ⟨⟩
    rfl

/-! ### The layout -/

/-- **Both sides have the same layout.** -/
theorem filterAt_encode (f : FilterFields) (padding : Padding) :
    filterAt (f.encode padding) = f := by
  have hdstAddr : slice (f.encode padding) 4 4 = le 4 f.dstAddr.toNat := rfl
  have hsrcAddr : slice (f.encode padding) 8 4 = le 4 f.srcAddr.toNat := rfl
  have hdstPort : slice (f.encode padding) 12 2 = le 2 f.dstPort.toNat := rfl
  have hsrcPort : slice (f.encode padding) 14 2 = le 2 f.srcPort.toNat := rfl
  rw [filterAt, hdstAddr, hsrcAddr, hdstPort, hsrcPort, leVal_le_of_lt f.dstAddr.toNat_lt,
    leVal_le_of_lt f.srcAddr.toNat_lt, leVal_le_of_lt f.dstPort.toNat_lt,
    leVal_le_of_lt f.srcPort.toNat_lt]
  simp [FilterFields.encode]

/-- What is written for a registration. -/
private theorem writeToProcEntry_R (daddr saddr : UInt32) (dport sport : UInt16) (index : UInt8)
    (padding : Padding) :
    writeToProcEntry 'R' daddr saddr dport sport index padding =
      some (0x52 :: 0 :: FilterFields.encode ⟨17, daddr, saddr, dport, sport⟩ padding) := rfl

/-- **The driver takes the bytes of a filter** to a block of its own. -/
theorem procfileWrite_encode {s : Filters} (hs : s.table.Sound) {f : UInt32} (hf : f ≠ 0)
    (g : FilterFields) (padding : Padding) :
    s.procfileWrite f (0x52 :: 0 :: g.encode padding) =
      .ok (⟨Table.Sound.added s.table f, Function.update s.blocks f (g.encode padding)⟩, 18) := by
  have hlength : (0x52 :: 0 :: g.encode padding).length = 2 + sizeofFilter := rfl
  have hR : (0x52 :: 0 :: g.encode padding)[0]? = some 0x52 := rfl
  rw [Filters.procfileWrite_eq hs f (Nat.le_of_eq hlength), Filters.reply, if_pos hR,
    if_neg (not_not.mpr hlength), if_neg hf]
  rfl

/-! ### The arguments -/

/-- What an option does to the variables. -/
def FilterOption.set (a : MkfilterArgs) : FilterOption → MkfilterArgs
  | da _ ip _ => { a with daddr := ip.sAddr }
  | sa _ ip _ => { a with saddr := ip.sAddr }
  | dp _ port _ => { a with dport := htons port }
  | sp _ port _ => { a with sport := htons port }

private theorem setAddr_of_valid {text : List Char} {ip : Ipv4} (h : inetPton text = some ip)
    (addr : UInt32) : setAddr addr text = ip.sAddr := by
  rw [setAddr, h]

private theorem portOf_of_valid {text : List Char} {port : UInt16} (h : atoi text = port.toNat) :
    portOf text = htons port := by
  rw [portOf, h, Framework.uint16_ofInt_toNat]

private theorem mkfilterLoop_option (o : FilterOption) (args : List (List Char))
    (a : MkfilterArgs) :
    mkfilterLoop (o.args ++ args) a = mkfilterLoop args (o.set a) := by
  cases o with
  | da text ip h =>
    change mkfilterLoop ("-da".toList :: text :: args) a = _
    rw [mkfilterLoop, if_pos rfl, setAddr_of_valid h]
    rfl
  | sa text ip h =>
    change mkfilterLoop ("-sa".toList :: text :: args) a = _
    rw [mkfilterLoop, if_neg (by decide), if_pos rfl, setAddr_of_valid h]
    rfl
  | dp text port h =>
    change mkfilterLoop ("-dp".toList :: text :: args) a = _
    rw [mkfilterLoop, if_neg (by decide), if_neg (by decide), if_pos rfl, portOf_of_valid h]
    rfl
  | sp text port h =>
    change mkfilterLoop ("-sp".toList :: text :: args) a = _
    rw [mkfilterLoop, if_neg (by decide), if_neg (by decide), if_neg (by decide), if_pos rfl,
      portOf_of_valid h]
    rfl

/-- **The loop** goes from option to option. -/
theorem mkfilterLoop_options (os : List FilterOption) (a : MkfilterArgs) :
    mkfilterLoop (os.flatMap FilterOption.args) a = .ok (os.foldl FilterOption.set a) := by
  induction os generalizing a with
  | nil => rfl
  | cons o os ih => rw [List.flatMap_cons, mkfilterLoop_option, ih, List.foldl_cons]

/-- A variable that only one option sets has the value that is given, or keeps its own. -/
private theorem foldl_set {α : Type} (get : MkfilterArgs → α) (field? : FilterOption → Option α)
    (key : List Char) (hset : ∀ a o, get (FilterOption.set a o) = (field? o).getD (get a))
    (hkey : ∀ o, o.name ≠ key → field? o = none) {os : List FilterOption}
    (hos : (os.map FilterOption.name).Nodup) (a : MkfilterArgs) :
    get (os.foldl FilterOption.set a) = (os.findSome? field?).getD (get a) := by
  induction os generalizing a with
  | nil => rfl
  | cons o os ih =>
    obtain ⟨hnew, hos⟩ := List.nodup_cons.mp hos
    rw [List.foldl_cons, ih hos, hset, List.findSome?_cons]
    cases ho : field? o with
    | none => rfl
    | some v =>
      -- no other option has this name
      have hname : o.name = key := by
        by_contra hne
        rw [hkey o hne] at ho
        cases ho
      have hnone : os.findSome? field? = none := by
        refine List.findSome?_eq_none_iff.mpr fun o' ho' => hkey o' fun h' => hnew ?_
        rw [hname, ← h']
        exact List.mem_map_of_mem ho'
      rw [hnone]
      rfl

/-- The variables hold what is asked for. -/
private theorem foldl_set_eq {os : List FilterOption} (hos : (os.map FilterOption.name).Nodup) :
    os.foldl FilterOption.set ⟨0, 0, 0, 0⟩ =
      ⟨(askedFor os).dstAddr, (askedFor os).srcAddr, (askedFor os).dstPort,
        (askedFor os).srcPort⟩ := by
  have hdaddr := foldl_set MkfilterArgs.daddr FilterOption.dstAddr? "-da".toList
    (fun a o => by cases o <;> rfl) (fun o h => by cases o <;> first | rfl | exact absurd rfl h) hos
    ⟨0, 0, 0, 0⟩
  have hsaddr := foldl_set MkfilterArgs.saddr FilterOption.srcAddr? "-sa".toList
    (fun a o => by cases o <;> rfl) (fun o h => by cases o <;> first | rfl | exact absurd rfl h) hos
    ⟨0, 0, 0, 0⟩
  have hdport := foldl_set MkfilterArgs.dport FilterOption.dstPort? "-dp".toList
    (fun a o => by cases o <;> rfl) (fun o h => by cases o <;> first | rfl | exact absurd rfl h) hos
    ⟨0, 0, 0, 0⟩
  have hsport := foldl_set MkfilterArgs.sport FilterOption.srcPort? "-sp".toList
    (fun a o => by cases o <;> rfl) (fun o h => by cases o <;> first | rfl | exact absurd rfl h) hos
    ⟨0, 0, 0, 0⟩
  cases hfold : os.foldl FilterOption.set ⟨0, 0, 0, 0⟩ with
  | mk daddr saddr dport sport =>
    rw [hfold] at hdaddr hsaddr hdport hsport
    dsimp only at hdaddr hsaddr hdport hsport
    rw [hdaddr, hsaddr, hdport, hsport]
    rfl

/-- **The bytes that are written**: those of the filter that is asked for, with its ports
exchanged. -/
theorem mkfilter_eq {os : List FilterOption} (hne : os ≠ [])
    (hos : (os.map FilterOption.name).Nodup) (padding : Padding) :
    mkfilter padding (os.flatMap FilterOption.args) = .ok (0, some (0x52 :: 0 ::
      (askedFor os).exchanged.encode padding)) := by
  have hargs : os.flatMap FilterOption.args ≠ [] := by
    obtain ⟨o, os, rfl⟩ := List.exists_cons_of_ne_nil hne
    cases o <;> exact List.cons_ne_nil _ _
  rw [mkfilter, if_neg hargs, mkfilterLoop_options, foldl_set_eq hos, ok_bind, writeToProcEntry_R]
  rfl

/-- **The filter that is asked for is installed, exactly if its ports are equal.** For any options
of `mkfilter` in any order, none of them twice, with valid values, and any table of filters: the
driver takes what `mkfilter` writes, and the next entry of its table points to a new filter. The
addresses and the ports of this filter are those that are given, in network byte order, and 0 for
those that are not, if and only if the two ports are the same. -/
theorem mkfilter_installs_iff (os : List FilterOption) (hne : os ≠ [])
    (hos : (os.map FilterOption.name).Nodup) (padding : Padding) (s : Filters)
    (hs : s.table.Sound) (f : UInt32) (hf : f ≠ 0) :
    ∃ bytes out, mkfilter padding (os.flatMap FilterOption.args) = .ok (0, some bytes) ∧
      s.procfileWrite f bytes = .ok out ∧ slot out.1.table.chains s.table.nfilters.toNat = f ∧
      (filterAt (out.1.blocks f) = askedFor os ↔
        (askedFor os).dstPort = (askedFor os).srcPort) := by
  have hlen := hs.length_chains
  have hlt := hs.length_live_lt
  refine ⟨_, _, mkfilter_eq hne hos padding, procfileWrite_encode hs hf _ padding, ?_, ?_⟩
  · rw [hs.nfilters_eq]
    exact slot_patch_self (by omega) f
  dsimp only
  rw [Function.update_self, filterAt_encode]
  exact FilterFields.exchanged_eq_iff _

/-- `-da 10.0.0.1`. -/
private def toAddress : FilterOption :=
  .da (Ipv4.dotted ⟨10, 0, 0, 1⟩) _ (Framework.inetPton_dotted _)

/-- `-dp 5000`. -/
def toPort : FilterOption := .dp "5000".toList 5000 (by decide +kernel)

/-- `-sp 5000`. -/
private def fromPort : FilterOption := .sp "5000".toList 5000 (by decide +kernel)

/-- A filter with an address and two equal ports. -/
theorem mkfilter_installs_equal_ports :
    ∃ bytes out, mkfilter ⟨0, 0, 0⟩ ["-da".toList, Ipv4.dotted ⟨10, 0, 0, 1⟩, "-dp".toList,
        "5000".toList, "-sp".toList, "5000".toList] = .ok (0, some bytes) ∧
      noFilters.procfileWrite 0x1000 bytes = .ok out ∧
      filterAt (out.1.blocks 0x1000) = ⟨17, 0x0100000a, 0, htons 5000, htons 5000⟩ := by
  obtain ⟨bytes, out, hbytes, hout, -, hiff⟩ :=
    mkfilter_installs_iff [toAddress, toPort, fromPort] (List.cons_ne_nil _ _) (by decide)
      ⟨0, 0, 0⟩ noFilters sound_initTable 0x1000 (by decide)
  exact ⟨bytes, out, hbytes, hout, hiff.mpr rfl⟩

/-- **The port is exchanged**: `mkfilter -dp 5000` installs a filter for packets from port 5000. -/
theorem mkfilter_exchanges_ports :
    ∃ bytes out, mkfilter ⟨0, 0, 0⟩ ["-dp".toList, "5000".toList] = .ok (0, some bytes) ∧
      noFilters.procfileWrite 0x1000 bytes = .ok out ∧
      filterAt (out.1.blocks 0x1000) = ⟨17, 0, 0, 0, htons 5000⟩ ∧
      askedFor [toPort] = ⟨17, 0, 0, htons 5000, 0⟩ := by
  have hbytes := mkfilter_eq (List.cons_ne_nil toPort []) (List.nodup_singleton _) ⟨0, 0, 0⟩
  refine ⟨_, _, hbytes, procfileWrite_encode sound_initTable (by decide) _ _, ?_, rfl⟩
  dsimp only
  rw [Function.update_self, filterAt_encode]
  rfl

end MiaVita.Rt2501
