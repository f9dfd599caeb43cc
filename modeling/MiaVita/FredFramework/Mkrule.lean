import MiaVita.FredFramework.ProcRegistry

/-!
# The command `mkrule` (`fred_framework/interceptor_shell`, `mkrule.c`, `cmd_line_parser.c`)

`mkrule` takes options in pairs and hands them to `write_to_proc`. A protocol that it does not know
and an address that `inet_pton` does not accept cannot be encoded (`ParsedArgs.Unencodable`).

Nothing of that is noticed. `inet_pton` reports a text that is no address with zero, where only
negative values are looked at, and an unknown protocol leaves out its field together with the colon
behind it, so that all the fields that follow take the place of the one before.

`rejectsUnencodable_iff`: the command fails for such arguments exactly if it would fail for any
others, because the file cannot be opened or written.
-/

namespace MiaVita.Framework

open Memory CText Fallible

/-! ### The source -/

/-- `parsed_args`. -/
structure ParsedArgs where
  iname : Option (List Char)
  daddr : Option (List Char)
  saddr : Option (List Char)
  dport : Option (List Char)
  sport : Option (List Char)
  proto : Option (List Char)
  ruleid : Option (List Char)
  deriving DecidableEq

/-- One option with its value; one that is not known is skipped. -/
def parseArg (pa : ParsedArgs) (option value : List Char) : ParsedArgs :=
  if option = "-n".toList then { pa with iname := some value }
  else if option = "-p".toList then { pa with proto := some value }
  else if option = "-da".toList then { pa with daddr := some value }
  else if option = "-sa".toList then { pa with saddr := some value }
  else if option = "-dp".toList then { pa with dport := some value }
  else if option = "-sp".toList then { pa with sport := some value }
  else if option = "-id".toList then { pa with ruleid := some value }
  else pa

/-- The loop of `parse_args`. -/
def parseArgsLoop (pa : ParsedArgs) : List (List Char) → ParsedArgs
  | option :: value :: args => parseArgsLoop (parseArg pa option value) args
  | _ => pa

/-- `parse_args`, on the arguments behind the name of the command. -/
def parseArgs (args : List (List Char)) : Option ParsedArgs :=
  let argc := args.length + 1
  if argc = 1 ∨ argc % 2 = 0 then none
  else
    let pa := parseArgsLoop ⟨none, none, none, none, none, none, none⟩ args
    if pa.iname = none ∧ pa.ruleid = none then none else some pa

/-- Whether `/proc/interceptor_registry` can be opened, and written. -/
structure ProcFile where
  opens : Bool
  writes : Bool

/-- The end of `write_to_proc`: the value that it returns, and what is written to the file. -/
def ProcFile.send (io : ProcFile) : Option (List Char) → ℤ × Option (List Char)
  | none => (0, none)
  | some buffer =>
    if io.opens = false then (0, none)
    else if io.writes = false then (0, none)
    else (1, some buffer)

/-- `main` of `mkrule`: its exit status, and what is written to the file. Without a name, `strlen`
is called with a null pointer. -/
def mkrule (io : ProcFile) (args : List (List Char)) : Except Fault (ℤ × Option (List Char)) :=
  match parseArgs args with
  | none => .ok (-1, none)
  | some pa =>
    match pa.iname with
    | none => .error (.read 0 1)
    | some iname => do
      let line ← writeToProc 'R' iname pa.proto pa.daddr pa.saddr pa.dport pa.sport none
      let out := io.send line
      return (if out.1 = 0 then -1 else 0, out.2)

/-! ### What cannot be encoded -/

namespace ParsedArgs

/-- A protocol that is not known, or an address that is none. -/
def Unencodable (pa : ParsedArgs) : Prop :=
  (∃ p, pa.proto = some p ∧ p ∉ ["UDP".toList, "NETAGG".toList, "APPAGG".toList]) ∨
    (∃ addr, pa.daddr = some addr ∧ inetPton addr = none) ∨
    ∃ addr, pa.saddr = some addr ∧ inetPton addr = none

/-- The line that `write_to_proc` builds. -/
def line (pa : ParsedArgs) (iname : List Char) : List Char :=
  ['R', ':'] ++ ([iname, [':']] ++ protocolPieces pa.proto ++ addressPieces pa.daddr ++
    addressPieces pa.saddr ++ dportPieces pa.dport ++ sportPieces pa.sport).flatten

/-- There is a name, and the line has room in the buffer. -/
def Builds (pa : ParsedArgs) : Prop :=
  ∃ iname, pa.iname = some iname ∧ (pa.line iname).length ≤ maxRegistryLine

end ParsedArgs

/-- The command ends with an error, and nothing is written to the file. -/
def Rejects (io : ProcFile) (args : List (List Char)) : Prop :=
  ∃ status, mkrule io args = .ok (status, none) ∧ status ≠ 0

/-- What cannot be encoded is rejected. -/
def RejectsUnencodable (io : ProcFile) (args : List (List Char)) : Prop :=
  ∀ pa, parseArgs args = some pa → pa.Unencodable → Rejects io args

variable {io : ProcFile} {args : List (List Char)} {pa : ParsedArgs}

/-- **What the command does** with a line that has room: it is written wherever that is possible. -/
theorem mkrule_eq {iname : List Char} (hpa : parseArgs args = some pa)
    (hname : pa.iname = some iname) (hline : (pa.line iname).length ≤ maxRegistryLine) :
    mkrule io args = .ok (if io.opens ∧ io.writes then
      (0, some (pa.line iname ++ zeros (maxRegistryLine - (pa.line iname).length)))
      else (-1, none)) := by
  rw [mkrule, hpa]
  dsimp only
  rw [hname]
  dsimp only
  rw [writeToProc, if_pos rfl, putAll_ok hline]
  -- what the fields hold plays no part from here on
  obtain ⟨opens, writes⟩ := io
  cases opens <;> cases writes <;> rfl

/-- A line that has no room, or no name, is a fault. -/
private theorem builds_of_mkrule_ok {out : ℤ × Option (List Char)} (hpa : parseArgs args = some pa)
    (h : mkrule io args = .ok out) : pa.Builds := by
  rw [mkrule, hpa] at h
  dsimp only at h
  cases hname : pa.iname with
  | none =>
    rw [hname] at h
    cases h
  | some iname =>
    rw [hname] at h
    obtain ⟨line, hline, -⟩ := bind_eq_ok.mp h
    rw [writeToProc, if_pos rfl] at hline
    obtain ⟨buffer, hbuffer, -⟩ := bind_eq_ok.mp hline
    exact ⟨iname, hname, (safe_putAll_iff (by decide)).mp ⟨buffer, hbuffer⟩⟩

private theorem rejects_iff (hpa : parseArgs args = some pa) :
    Rejects io args ↔ pa.Builds ∧ ¬ (io.opens ∧ io.writes) := by
  constructor
  · rintro ⟨status, hstatus, hne⟩
    obtain ⟨iname, hname, hline⟩ := builds_of_mkrule_ok hpa hstatus
    refine ⟨⟨iname, hname, hline⟩, fun hio => ?_⟩
    rw [mkrule_eq hpa hname hline, if_pos hio] at hstatus
    cases hstatus
  · rintro ⟨⟨iname, hname, hline⟩, hio⟩
    refine ⟨-1, ?_, by decide⟩
    rw [mkrule_eq hpa hname hline, if_neg hio]

/-- **What cannot be encoded is rejected** exactly if nothing can be sent at all: there is no fault
on the way, and the file cannot be opened or written. -/
theorem rejectsUnencodable_iff (io : ProcFile) (args : List (List Char)) :
    RejectsUnencodable io args ↔
      ∀ pa, parseArgs args = some pa → pa.Unencodable →
        pa.Builds ∧ ¬ (io.opens ∧ io.writes) := by
  refine forall_congr' fun pa => forall_congr' fun hpa => forall_congr' fun _ => ?_
  exact rejects_iff hpa

/-- `mkrule -n aggregation -p TCP -da 1.0.0.0` -/
def unknownProtocol : List (List Char) :=
  ["-n".toList, "aggregation".toList, "-p".toList, "TCP".toList, "-da".toList, "1.0.0.0".toList]

/-- **A shifted request**: the protocol is not known, and the destination address takes its place.
The rule that the kernel is asked for is one for protocol 1 and any address. -/
theorem mkrule_shifted :
    ∃ pa buffer, parseArgs unknownProtocol = some pa ∧ pa.Unencodable ∧
      mkrule ⟨true, true⟩ unknownProtocol = .ok (0, some buffer) ∧
      buffer = "R:aggregation:1:::".toList ++ zeros 782 ∧
      procfileWrite procRegistrySizes buffer = .ok (maxRegistryLine,
        some (.createRule "aggregation".toList ⟨filterByL4Proto, 1, 0, 0, 0, 0⟩)) ∧
      ¬ RejectsUnencodable ⟨true, true⟩ unknownProtocol := by
  have hparse : parseArgs unknownProtocol = some ⟨some "aggregation".toList,
      some "1.0.0.0".toList, none, none, none, some "TCP".toList, none⟩ := by
    decide +kernel
  have hunencodable : ParsedArgs.Unencodable ⟨some "aggregation".toList,
      some "1.0.0.0".toList, none, none, none, some "TCP".toList, none⟩ :=
    .inl ⟨_, rfl, by decide⟩
  refine ⟨_, _, hparse, hunencodable, mkrule_eq hparse rfl (by decide +kernel), by decide +kernel,
    by decide +kernel, fun h => ?_⟩
  exact ((rejects_iff hparse).mp (h _ hparse hunencodable)).2 ⟨rfl, rfl⟩

end MiaVita.Framework
