import SamplePrograms.CdpWalker.Relations
import SamplePrograms.Library.Loops
import Mathlib.Data.List.AList

/-!
# The neighbours of one host in `hpcdpdisco.py`

The walk of a CDP cache table delivers one column after another. The program
puts the rows together again in a dictionary of devices, which is keyed by the
interface index of the row alone.

## Implementation notes

An object identifier is the list of its numbers. The column constants of the
source end in a dot, so that a text starts with one of them exactly when the
list starts with its numbers. The order in which a dictionary is listed is left
open by the language, and the statements hold for every order. The sessions
answer without a state, and what they log or print is left out.
-/

namespace SamplePrograms.CdpWalker
open FirstOfKey Loops

/-- What the interpreter raises. -/
inductive PyError where
  | indexError
  | typeError
  | valueError
  deriving DecidableEq, Repr

abbrev Oid := List Nat

def oidSysname : Oid := [1, 3, 6, 1, 2, 1, 1, 5, 0]
def oidCdpCacheEntry : Oid := [1, 3, 6, 1, 4, 1, 9, 9, 23, 1, 2, 1, 1]
def oidCdpCacheDeviceid : Oid := [1, 3, 6, 1, 4, 1, 9, 9, 23, 1, 2, 1, 1, 6]
def oidCdpCacheDeviceport : Oid := [1, 3, 6, 1, 4, 1, 9, 9, 23, 1, 2, 1, 1, 7]
def oidCdpCacheAddress : Oid := [1, 3, 6, 1, 4, 1, 9, 9, 23, 1, 2, 1, 1, 4]
def oidIfDescr : Oid := [1, 3, 6, 1, 2, 1, 2, 2, 1, 2]

/-- The answers of a host. A request that failed has no answer, and its walk is empty. -/
structure SnmpSession where
  snmpGet : Oid → Option (Oid × String)
  snmpGetnext : Oid → List (Oid × String)

structure CdpDevice where
  deviceid : String := ""
  deviceport : String := ""
  address : String := ""
  deriving DecidableEq

/-- `int(snmpoid.split(".")[-2])`. -/
def getCacheIfindex (snmpoid : Oid) : Except PyError Nat :=
  match snmpoid.dropLast.getLast? with
  | some ifindex => .ok ifindex
  | none => .error .indexError

/-- `snmp.snmp_get(oid)[1]`. -/
def snmpValue (snmp : SnmpSession) (oid : Oid) : Except PyError String :=
  match snmp.snmpGet oid with
  | some (_, value) => .ok value
  | none => .error .typeError

/-- `int(value[i:i+1], 16)`. -/
def hexAt (value : String) (i : Nat) : Except PyError Nat :=
  match value.toList[i]? with
  | none => .error .valueError
  | some c =>
      if '0' ≤ c ∧ c ≤ '9' then .ok (c.toNat - '0'.toNat)
      else if 'a' ≤ c ∧ c ≤ 'f' then .ok (c.toNat - 'a'.toNat + 10)
      else if 'A' ≤ c ∧ c ≤ 'F' then .ok (c.toNat - 'A'.toNat + 10)
      else .error .valueError

/-- The text of an address cell, from four characters of the printed value. -/
def addressText (value : String) : Except PyError String := do
  let a ← hexAt value 2
  let b ← hexAt value 3
  let c ← hexAt value 4
  let d ← hexAt value 5
  pure s!"{a}.{b}.{c}.{d}"

/-- The variables of `get_cdp_neighbors`. -/
structure Walk where
  neighbors : AList fun _ : Nat => CdpDevice
  relations : List (Relation String)
  hostname : String

/-- `neighbors[ifindex]`, with a new device where there was none. -/
def Walk.device (w : Walk) (ifindex : Nat) : CdpDevice := (w.neighbors.lookup ifindex).getD {}

def Walk.put (w : Walk) (ifindex : Nat) (device : CdpDevice) : Walk :=
  { w with neighbors := w.neighbors.insert ifindex device }

/-- The host name is asked for once, as far as it is not empty. -/
def localHostname (snmp : SnmpSession) (hostname : String) : Except PyError String :=
  if hostname = "" then snmpValue snmp oidSysname else pure hostname

/-- The branch for a device port cell. -/
def readDevicePort (snmp : SnmpSession) (w : Walk) (ifindex : Nat) (value : String) :
    Except PyError Walk := do
  let hostname ← localHostname snmp w.hostname
  let ifname ← snmpValue snmp (oidIfDescr ++ [ifindex])
  let var1 := ⟨hostname, ifname, (w.device ifindex).deviceid, value⟩
  pure ⟨w.neighbors, appendRelation w.relations var1, hostname⟩

/-- The body of the loop over the walk. -/
def readCell (snmp : SnmpSession) (w : Walk) (resp : Oid × String) : Except PyError Walk := do
  let ifindex ← getCacheIfindex resp.1
  let w := w.put ifindex (w.device ifindex)
  if oidCdpCacheAddress.isPrefixOf resp.1 then do
    let address ← addressText resp.2
    pure (w.put ifindex { w.device ifindex with address := address })
  else if oidCdpCacheDeviceid.isPrefixOf resp.1 then
    pure (w.put ifindex { w.device ifindex with deviceid := resp.2 })
  else if oidCdpCacheDeviceport.isPrefixOf resp.1 then
    readDevicePort snmp w ifindex resp.2
  else
    pure w

def getCdpNeighbors (snmp : SnmpSession) :
    Except PyError (List CdpDevice × List (Relation String)) := do
  let resp := snmp.snmpGetnext oidCdpCacheEntry
  if resp = [] then
    pure ([], [])
  else do
    let w ← resp.foldlM (readCell snmp) ⟨∅, [], ""⟩
    pure (w.neighbors.entries.map Sigma.snd, w.relations)

/-! ## Tables -/

/-- A row of the cache table with the printed values of its columns. -/
structure Row where
  ifIndex : Nat
  deviceIndex : Nat
  cell : Nat → String

namespace Row

def address (r : Row) : String := r.cell 4
def deviceid (r : Row) : String := r.cell 6
def deviceport (r : Row) : String := r.cell 7

/-- The relation of a row: its own port and device on its own interface. -/
def relation (sysName : String) (ifDescr : Nat → String) (r : Row) : Relation String :=
  ⟨sysName, ifDescr r.ifIndex, r.deviceid, r.deviceport⟩

end Row

/-- A CDP cache table. It has the columns that the program reads, and may have more. -/
structure CdpTable where
  columns : List Nat
  rows : List Row
  columnsSorted : columns.Pairwise (· < ·)
  rowsSorted : rows.Pairwise fun r s =>
    r.ifIndex < s.ifIndex ∨ r.ifIndex = s.ifIndex ∧ r.deviceIndex < s.deviceIndex
  hasAddress : 4 ∈ columns
  hasDeviceid : 6 ∈ columns
  hasDeviceport : 7 ∈ columns

/-- A cell as the walk delivers it. -/
def Row.entry (r : Row) (column : Nat) : Oid × String :=
  (oidCdpCacheEntry ++ [column, r.ifIndex, r.deviceIndex], r.cell column)

/-- The walk of a table, column by column. -/
def CdpTable.walk (table : CdpTable) : List (Oid × String) :=
  table.columns.flatMap fun column => table.rows.map fun r => r.entry column

/-- The session walks the table and knows the names of the host and its interfaces. -/
structure Answers (snmp : SnmpSession) (table : CdpTable) (sysName : String)
    (ifDescr : Nat → String) : Prop where
  walk : snmp.snmpGetnext oidCdpCacheEntry = table.walk
  sysName : snmpValue snmp oidSysname = .ok sysName
  ifDescr : ∀ i, snmpValue snmp (oidIfDescr ++ [i]) = .ok (ifDescr i)

/-- The walk is in the lexicographic order of the object identifiers. -/
theorem CdpTable.walk_sorted (table : CdpTable) :
    (table.walk.map Prod.fst).Pairwise (· < ·) := by
  rw [List.pairwise_map, CdpTable.walk, List.pairwise_flatMap]
  constructor
  · intro c _
    rw [List.pairwise_map]
    apply table.rowsSorted.imp
    intro r s h
    simp [Row.entry, oidCdpCacheEntry, List.cons_lt_cons_iff, h]
  · apply table.columnsSorted.imp
    intro c d hcd x hx y hy
    obtain ⟨r, -, rfl⟩ := List.mem_map.mp hx
    obtain ⟨s, -, rfl⟩ := List.mem_map.mp hy
    simp [Row.entry, oidCdpCacheEntry, List.cons_lt_cons_iff, hcd]

end SamplePrograms.CdpWalker
