import SamplePrograms.CdpWalker.Rows

/-!
# The network that `hpcdpdisco.py` prints

A network is a set of cables, each between two ports. Both devices of a cable have it in their
tables, each from its own side, and not every device answers. The program asks the devices of its
command line one after another.

## Implementation notes

A device has one cable at an interface, so that no two rows of its table share an interface. What
the program logs and the exit code are left out. The option `-c` is part of the sessions.
-/

namespace SamplePrograms.CdpWalker
open FirstOfKey

/-! ## The program -/

/-- `%30s`. -/
def padded (s : String) : String := "".pushn ' ' (30 - s.length) ++ s

def printRelations (relations : List (Relation String)) : List String :=
  (padded "LocalHost" ++ " " ++ padded "LocalPort" ++ " " ++ padded "RemotePort" ++ " " ++
    padded "RemoteHost") ::
  relations.map fun relrow =>
    padded relrow.host1 ++ " " ++ padded relrow.host1If ++ " --> " ++ padded relrow.host2If ++
      " " ++ padded relrow.host2

/-- The loop over the hosts of the command line. -/
def walkHosts (session : String → SnmpSession) :
    List String → List (Relation String) → Except PyError (List (Relation String))
  | [], relations => pure relations
  | host :: args, relations => do
      let (_, rel) ← getCdpNeighbors (session host)
      walkHosts session args (mergeRelations relations rel)

def usage (argv0 : String) : String :=
  "Usage: " ++ argv0 ++ " -c <community string>  <node> [... <nodes>]"

/-- What the main program prints. -/
def main (argv0 : String) (session : String → SnmpSession) (args : List String) :
    Except PyError (List String) :=
  if args.length = 0 then
    pure ["Error: <node> required!", usage argv0]
  else do
    let relations ← walkHosts session args []
    pure (printRelations relations)

/-! ## Networks -/

/-- A device with the name of one of its interfaces. -/
abbrev Port := String × String

/-- The cables of a network that end at a device. -/
def cablesAt (net : Set (Sym2 Port)) (device : String) : Set (Sym2 Port) :=
  {l | l ∈ net ∧ ∃ interface, (device, interface) ∈ l}

/-- The device answers, and its table has its cables, each on an interface of its own. -/
structure Sees (net : Set (Sym2 Port)) (snmp : SnmpSession) (device : String) (table : CdpTable)
    (ifDescr : Nat → String) : Prop where
  answers : Answers snmp table device ifDescr
  interfaces : (table.rows.map Row.ifIndex).Nodup
  printable : ∀ r ∈ table.rows, Printable r.address
  cables : undirected (table.rows.map (Row.relation device ifDescr)) = cablesAt net device

/-- Each host of the command line is a device that sees its cables, or does not answer. -/
def Answering (net : Set (Sym2 Port)) (session : String → SnmpSession)
    (device : String → Option String) : Prop :=
  ∀ host, match device host with
    | none => (session host).snmpGetnext oidCdpCacheEntry = []
    | some name => ∃ table ifDescr, Sees net (session host) name table ifDescr

/-- The cables of the devices that answer. -/
def cablesOf (net : Set (Sym2 Port)) (device : String → Option String) (args : List String) :
    Set (Sym2 Port) :=
  {l | ∃ host ∈ args, ∃ name, device host = some name ∧ l ∈ cablesAt net name}

section Network
variable {net : Set (Sym2 Port)} {session : String → SnmpSession}
variable {device : String → Option String}

/-- A list with every link of the input has the same links. -/
theorem undirected_of_isLinkList {N : Type*} [DecidableEq N] {input out : List (Relation N)}
    (h : IsLinkList input out) : undirected out = undirected input := by
  ext l
  constructor
  · rintro ⟨r, hr, rfl⟩
    exact ⟨r, h.fromInput r hr, rfl⟩
  · rintro ⟨r, hr, rfl⟩
    have one : 0 < out.countP fun x => x = r ∨ x = r.mirror := by
      rw [h.once r hr]
      exact Nat.one_pos
    obtain ⟨x, hx, same⟩ := List.countP_pos_iff.mp one
    exact ⟨x, hx, (r.link_eq_iff x).mpr (by simpa using same)⟩

/-- A device reports its cables. -/
theorem Sees.reports {snmp : SnmpSession} {name : String} {table : CdpTable}
    {ifDescr : Nat → String} (h : Sees net snmp name table ifDescr) :
    ∃ devices rel, getCdpNeighbors snmp = .ok (devices, rel) ∧
      undirected rel = cablesAt net name := by
  obtain ⟨w, walked, collected⟩ := readCells_collected h.answers h.interfaces h.printable
  refine ⟨w.neighbors.entries.map Sigma.snd, w.relations, ?_, ?_⟩
  · rw [getCdpNeighbors_eq h.answers, walked]
    rfl
  · rw [undirected_of_isLinkList (collected.reports h.interfaces).relations, h.cables]

/-- A host that does not answer reports nothing. -/
theorem Answering.reports (h : Answering net session device) (host : String) :
    ∃ devices rel, getCdpNeighbors (session host) = .ok (devices, rel) ∧
      undirected rel = cablesOf net device [host] := by
  have one := h host
  cases named : device host with
  | none =>
      rw [named] at one
      refine ⟨[], [], ?_, ?_⟩
      · rw [getCdpNeighbors, if_pos one]
        rfl
      · ext l
        simp [undirected, cablesOf, named]
  | some name =>
      rw [named] at one
      obtain ⟨table, ifDescr, sees⟩ := one
      obtain ⟨devices, rel, run, cables⟩ := sees.reports
      refine ⟨devices, rel, run, cables.trans ?_⟩
      ext l
      simp [cablesOf, named]

theorem undirected_mergeRelations (relations rel : List (Relation String)) :
    undirected (mergeRelations relations rel) = undirected relations ∪ undirected rel := by
  ext l
  rw [mem_undirected, mergeRelations_eq, keys_addAll, Set.mem_union, mem_undirected,
    mem_undirected]

/-- The loop adds the cables of each host that are not there yet. -/
theorem walkHosts_cables (answering : Answering net session device) (args : List String)
    {relations : List (Relation String)} (nodup : (relations.map Relation.link).Nodup) :
    ∃ out, walkHosts session args relations = .ok out ∧ (out.map Relation.link).Nodup ∧
      undirected out = undirected relations ∪ cablesOf net device args := by
  induction args generalizing relations with
  | nil =>
      refine ⟨relations, rfl, nodup, ?_⟩
      simp [cablesOf]
  | cons host args ih =>
      obtain ⟨devices, rel, run, cables⟩ := answering.reports host
      have merged : ((mergeRelations relations rel).map Relation.link).Nodup := by
        rw [mergeRelations_eq]
        exact nodup_addAll nodup rel
      obtain ⟨out, rest, nodup_out, links⟩ := ih merged
      refine ⟨out, ?_, nodup_out, ?_⟩
      · rw [walkHosts, run]
        exact rest
      · rw [links, undirected_mergeRelations, cables, Set.union_assoc]
        congr 1
        ext l
        simp [cablesOf, or_and_right, exists_or]

/-- The program prints a line for each cable at a device that answers, and for no other cable,
whatever the order of the hosts and however often they are named. -/
theorem main_cables (argv0 : String) (answering : Answering net session device)
    {args : List String} (named : args ≠ []) :
    ∃ relations, main argv0 session args = .ok (printRelations relations) ∧
      (relations.map Relation.link).Nodup ∧ undirected relations = cablesOf net device args := by
  have none : (([] : List (Relation String)).map Relation.link).Nodup := List.nodup_nil
  obtain ⟨relations, run, nodup, cables⟩ := walkHosts_cables answering args none
  refine ⟨relations, ?_, nodup, ?_⟩
  · rw [main, if_neg (by simpa using named), run]
    rfl
  · rw [cables]
    simp [undirected]

end Network

/-! ## One device that answers -/

/-- The cables of `core` in the table of two interfaces. -/
def coreNet : Set (Sym2 Port) :=
  undirected (twoInterfaces.rows.map (Row.relation "core" fun _ => "eth"))

theorem coreNet_eq : coreNet = {l | l = s(("core", "eth"), ("east", "p1")) ∨
    l = s(("core", "eth"), ("west", "p2"))} := by
  ext l
  rw [coreNet, mem_undirected]
  exact List.mem_pair

/-- A host that does not answer. -/
def silent : SnmpSession where
  snmpGet _ := none
  snmpGetnext _ := []

def coreSession (host : String) : SnmpSession :=
  if host = "core" then sessionOf twoInterfaces "core" fun _ => "eth" else silent

def coreDevice (host : String) : Option String := if host = "core" then some "core" else none

theorem core_sees :
    Sees coreNet (sessionOf twoInterfaces "core" fun _ => "eth") "core" twoInterfaces
      fun _ => "eth" where
  answers := sessionOf_answers _ _ _
  interfaces := by decide
  printable := by
    intro r hr
    rcases List.mem_pair.mp hr with rfl | rfl
    · exact neighbourRow_printable 1 1 "east" "p1"
    · exact neighbourRow_printable 2 1 "west" "p2"
  cables := by
    change coreNet = cablesAt coreNet "core"
    ext l
    constructor
    · intro hl
      refine ⟨hl, "eth", ?_⟩
      rw [coreNet_eq] at hl
      rcases hl with rfl | rfl
      · exact Sym2.mem_mk_left _ _
      · exact Sym2.mem_mk_left _ _
    · exact And.left

theorem core_answering : Answering coreNet coreSession coreDevice := by
  intro host
  by_cases h : host = "core"
  · simp only [coreDevice, coreSession, if_pos h]
    exact ⟨twoInterfaces, fun _ => "eth", core_sees⟩
  · simp only [coreDevice, coreSession, if_neg h]
    rfl

/-- The host that answers is named twice. -/
theorem main_cables_core :
    ∃ relations,
      main "hpcdpdisco.py" coreSession ["core", "edge", "core"] =
          .ok (printRelations relations) ∧
        (relations.map Relation.link).Nodup ∧
          undirected relations = cablesOf coreNet coreDevice ["core", "edge", "core"] :=
  main_cables "hpcdpdisco.py" core_answering (by decide)

end SamplePrograms.CdpWalker
