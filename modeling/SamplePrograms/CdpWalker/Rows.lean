import SamplePrograms.CdpWalker.Neighbors

/-!
# Which tables `get_cdp_neighbors` puts together again

The dictionary has one device for each interface. So the rows of a table come
back one by one when no two of them share an interface, and only then. An
address cell whose printed value has no four hexadecimal digits in the places
that the program reads stops it.

## Implementation notes

The walk is taken as one loop over the cells of the table. A cell is a row with
the number of a column.
-/

namespace SamplePrograms.CdpWalker
open FirstOfKey Loops

/-- The report on a table: one device for each row, and the relation of each row
once, as given or mirrored. -/
structure Reports (table : CdpTable) (sysName : String) (ifDescr : Nat → String)
    (devices : List CdpDevice) (relations : List (Relation String)) : Prop where
  devices : (devices.map CdpDevice.deviceid).Perm (table.rows.map Row.deviceid)
  relations : IsLinkList (table.rows.map (Row.relation sysName ifDescr)) relations

/-- The program can print an address. -/
def Printable (address : String) : Prop := ∃ text, addressText address = .ok text

/-- The cells in the order of the walk. -/
def CdpTable.cells (table : CdpTable) : List (Row × Nat) :=
  table.columns.flatMap fun column => table.rows.map fun r => (r, column)

namespace CdpTable
variable (table : CdpTable)

theorem walk_eq : table.walk = table.cells.map fun p => p.1.entry p.2 := by
  simp [walk, cells, List.map_flatMap, Function.comp_def]

theorem mem_cells (p : Row × Nat) : p ∈ table.cells ↔ p.1 ∈ table.rows ∧ p.2 ∈ table.columns := by
  obtain ⟨r, c⟩ := p
  simp [cells, and_comm]

/-- The columns come one after another. -/
theorem cells_sorted : table.cells.Pairwise fun p q => p.2 ≤ q.2 := by
  rw [cells, List.pairwise_flatMap]
  constructor
  · intro c _
    rw [List.pairwise_map]
    exact List.pairwise_of_forall fun r s => le_refl c
  · apply table.columnsSorted.imp
    intro c d hcd p hp q hq
    obtain ⟨r, -, rfl⟩ := List.mem_map.mp hp
    obtain ⟨s, -, rfl⟩ := List.mem_map.mp hq
    exact le_of_lt hcd

end CdpTable

/-! ## One cell -/

@[simp] theorem Walk.device_put (w : Walk) (i : Nat) (d : CdpDevice) :
    (w.put i d).device i = d := by
  simp [Walk.device, Walk.put]

theorem Walk.device_put_of_ne (w : Walk) {i j : Nat} (h : j ≠ i) (d : CdpDevice) :
    (w.put i d).device j = w.device j := by
  simp [Walk.device, Walk.put, AList.lookup_insert_ne h]

/-- A device that is created or left alone changes no device. -/
@[simp] theorem Walk.device_put_self (w : Walk) (i j : Nat) :
    (w.put i (w.device i)).device j = w.device j := by
  by_cases h : j = i
  · subst h
    exact w.device_put j _
  · exact w.device_put_of_ne h _

@[simp] theorem Walk.put_put (w : Walk) (i : Nat) (d e : CdpDevice) :
    (w.put i d).put i e = w.put i e := by
  simp [Walk.put]

@[simp] theorem Walk.mem_put (w : Walk) (i j : Nat) (d : CdpDevice) :
    j ∈ (w.put i d).neighbors ↔ j = i ∨ j ∈ w.neighbors := AList.mem_insert _

@[simp] theorem Walk.relations_put (w : Walk) (i : Nat) (d : CdpDevice) :
    (w.put i d).relations = w.relations := rfl

@[simp] theorem Walk.hostname_put (w : Walk) (i : Nat) (d : CdpDevice) :
    (w.put i d).hostname = w.hostname := rfl

theorem getCacheIfindex_entry (r : Row) (c : Nat) :
    getCacheIfindex (r.entry c).1 = .ok r.ifIndex := rfl

theorem isPrefixOf_entry (r : Row) (c d : Nat) :
    (oidCdpCacheEntry ++ [d]).isPrefixOf (r.entry c).1 ↔ c = d := by
  have last : (oidCdpCacheEntry ++ [d]).isPrefixOf (r.entry c).1 = (d == c) := by
    simp [Row.entry, oidCdpCacheEntry, List.isPrefixOf]
  rw [last, beq_iff_eq]
  exact eq_comm

/-- What the variables are after a cell. -/
structure CellRead (sysName : String) (ifDescr : Nat → String) (r : Row) (c : Nat) (w w' : Walk) :
    Prop where
  named : w'.hostname = "" ∨ w'.hostname = sysName
  keys : ∀ j, j ∈ w'.neighbors ↔ j = r.ifIndex ∨ j ∈ w.neighbors
  deviceid : ∀ j, (w'.device j).deviceid =
    if c = 6 ∧ j = r.ifIndex then r.deviceid else (w.device j).deviceid
  relations : w'.relations =
    if c = 7 then
      appendRelation w.relations
        ⟨sysName, ifDescr r.ifIndex, (w.device r.ifIndex).deviceid, r.deviceport⟩
    else w.relations

/-- Writing a device leaves the other devices and their ids alone. -/
theorem deviceid_put (w : Walk) (i j : Nat) (d : CdpDevice) :
    ((w.put i d).device j).deviceid = if j = i then d.deviceid else (w.device j).deviceid := by
  by_cases h : j = i
  · subst h
    simp
  · simp [h, w.device_put_of_ne h]

section Session
variable {snmp : SnmpSession} {table : CdpTable} {sysName : String} {ifDescr : Nat → String}
  {w : Walk}

theorem localHostname_ok (answers : Answers snmp table sysName ifDescr) {hostname : String}
    (named : hostname = "" ∨ hostname = sysName) :
    localHostname snmp hostname = .ok sysName := by
  unfold localHostname
  split
  case isTrue => exact answers.sysName
  case isFalse h =>
    rw [named.resolve_left h]
    rfl

theorem readDevicePort_ok (answers : Answers snmp table sysName ifDescr) {w : Walk}
    (named : w.hostname = "" ∨ w.hostname = sysName) (i : Nat) (value : String) :
    readDevicePort snmp w i value =
      .ok ⟨w.neighbors, appendRelation w.relations
        ⟨sysName, ifDescr i, (w.device i).deviceid, value⟩, sysName⟩ := by
  simp only [readDevicePort, localHostname_ok answers named, answers.ifDescr]
  rfl

/-- The branches of the loop body, by the number of the column. -/
theorem readCell_entry (w : Walk) (r : Row) (c : Nat) :
    readCell snmp w (r.entry c) =
      if c = 4 then
        (addressText r.address).map fun address =>
          w.put r.ifIndex { w.device r.ifIndex with address := address }
      else if c = 6 then
        .ok (w.put r.ifIndex { w.device r.ifIndex with deviceid := r.deviceid })
      else if c = 7 then
        readDevicePort snmp (w.put r.ifIndex (w.device r.ifIndex)) r.ifIndex r.deviceport
      else
        .ok (w.put r.ifIndex (w.device r.ifIndex)) := by
  have address : oidCdpCacheAddress.isPrefixOf (r.entry c).1 ↔ c = 4 := isPrefixOf_entry r c 4
  have deviceid : oidCdpCacheDeviceid.isPrefixOf (r.entry c).1 ↔ c = 6 := isPrefixOf_entry r c 6
  have deviceport : oidCdpCacheDeviceport.isPrefixOf (r.entry c).1 ↔ c = 7 :=
    isPrefixOf_entry r c 7
  simp only [readCell, getCacheIfindex_entry, bind, Except.bind, address, deviceid, deviceport,
    Walk.device_put, Walk.put_put]
  split_ifs with h4 h6 h7
  · subst h4
    cases h : addressText r.address with
    | error e =>
        rw [Row.address] at h
        simp only [Row.entry, h]
        rfl
    | ok text =>
        rw [Row.address] at h
        simp only [Row.entry, h]
        rfl
  · subst h6
    rfl
  · subst h7
    rfl
  · rfl

theorem readCell_ok (answers : Answers snmp table sysName ifDescr) {w : Walk}
    (named : w.hostname = "" ∨ w.hostname = sysName) {r : Row} {c : Nat}
    (printable : c = 4 → Printable r.address) :
    ∃ w', readCell snmp w (r.entry c) = .ok w' ∧ CellRead sysName ifDescr r c w w' := by
  rw [readCell_entry]
  split_ifs with h4 h6 h7
  · obtain ⟨text, ht⟩ := printable h4
    rw [ht]
    refine ⟨_, rfl, named, by simp, ?_, by simp [h4]⟩
    intro j
    have keeps : ((w.put r.ifIndex { w.device r.ifIndex with address := text }).device j).deviceid =
        (w.device j).deviceid := by
      rw [deviceid_put, ite_eq_right_iff]
      rintro rfl
      rfl
    simpa [h4] using keeps
  · refine ⟨_, rfl, named, by simp, ?_, by simp [h6]⟩
    intro j
    simp [deviceid_put, h6]
  · rw [readDevicePort_ok answers (by exact named)]
    refine ⟨_, rfl, Or.inr rfl, by simp, ?_, by simp [h7]⟩
    intro j
    rw [if_neg (by simp [h7])]
    exact congrArg CdpDevice.deviceid (w.device_put_self r.ifIndex j)
  · refine ⟨_, rfl, named, by simp, ?_, by simp [h7]⟩
    intro j
    simp [h6]

/-- An address cell that was read has a text. -/
theorem printable_of_readCell {w w' : Walk} {r : Row}
    (run : readCell snmp w (r.entry 4) = .ok w') : Printable r.address := by
  rw [readCell_entry, if_pos rfl] at run
  cases h : addressText r.address with
  | error e =>
      rw [h] at run
      cases run
  | ok text => exact ⟨text, h⟩

/-! ## The walk -/

/-- The loop over the walk, cell by cell. -/
def readCells (snmp : SnmpSession) (w : Walk) (cells : List (Row × Nat)) : Except PyError Walk :=
  cells.foldlM (fun w p => readCell snmp w (p.1.entry p.2)) w

theorem getCdpNeighbors_eq (answers : Answers snmp table sysName ifDescr) :
    getCdpNeighbors snmp = (readCells snmp ⟨∅, [], ""⟩ table.cells).map fun w =>
      (w.neighbors.entries.map Sigma.snd, w.relations) := by
  have loop : table.walk.foldlM (readCell snmp) ⟨∅, [], ""⟩ =
      readCells snmp ⟨∅, [], ""⟩ table.cells := by
    rw [table.walk_eq, List.foldlM_map]
    rfl
  rw [getCdpNeighbors, answers.walk, ← loop]
  split
  case isTrue h =>
    rw [h]
    rfl
  case isFalse => rfl

/-- What is known after the cells of a list, whatever the table. -/
structure Visited (sysName : String) (front : List (Row × Nat)) (w : Walk) : Prop where
  named : w.hostname = "" ∨ w.hostname = sysName
  keys : ∀ j, j ∈ w.neighbors ↔ ∃ p ∈ front, p.1.ifIndex = j
  printable : ∀ p ∈ front, p.2 = 4 → Printable p.1.address

theorem visited_nil (sysName : String) : Visited sysName [] ⟨∅, [], ""⟩ where
  named := Or.inl rfl
  keys j := by simp
  printable p hp := absurd hp List.not_mem_nil

theorem Visited.read {front : List (Row × Nat)} {w w' : Walk} (h : Visited sysName front w)
    {r : Row} {c : Nat} (printable : c = 4 → Printable r.address)
    (read : CellRead sysName ifDescr r c w w') : Visited sysName (front ++ [(r, c)]) w' where
  named := read.named
  keys j := by
    rw [read.keys, h.keys, or_comm]
    simp [or_and_right, exists_or, eq_comm]
  printable p hp h4 := by
    rcases List.mem_append.mp hp with hp | hp
    · exact h.printable p hp h4
    · cases List.mem_singleton.mp hp
      exact printable h4

/-- A walk that was read to the end visited every cell. -/
theorem readCells_visited (answers : Answers snmp table sysName ifDescr)
    {cells : List (Row × Nat)} {w : Walk} (run : readCells snmp ⟨∅, [], ""⟩ cells = .ok w) :
    Visited sysName cells w := by
  refine foldlM_inv (P := Visited sysName) (visited_nil sysName) ?_ run
  rintro front ⟨r, c⟩ w w' h step
  have printable : c = 4 → Printable r.address := by
    rintro rfl
    exact printable_of_readCell step
  obtain ⟨w₁, run₁, read⟩ := readCell_ok answers h.named printable
  cases run₁.symm.trans step
  exact h.read printable read

/-- What is known after the cells of a list, when the rows have interfaces of their own. -/
structure Collected (sysName : String) (ifDescr : Nat → String) (rows : List Row)
    (front : List (Row × Nat)) (w : Walk) : Prop where
  visited : Visited sysName front w
  deviceids : ∀ r, (r, 6) ∈ front → (w.device r.ifIndex).deviceid = r.deviceid
  nodup : (w.relations.map Relation.link).Nodup
  present : ∀ r, (r, 7) ∈ front →
    (r.relation sysName ifDescr).link ∈ w.relations.map Relation.link
  fromRows : ∀ x ∈ w.relations, ∃ r ∈ rows, r.relation sysName ifDescr = x

theorem collected_nil (rows : List Row) : Collected sysName ifDescr rows [] ⟨∅, [], ""⟩ where
  visited := visited_nil sysName
  deviceids := by simp
  nodup := List.nodup_nil
  present := by simp
  fromRows := by simp

/-- With the right device id in the dictionary, a port cell adds the relation of its row. -/
theorem CellRead.relations_eq {r : Row} {c : Nat} {w w' : Walk}
    (read : CellRead sysName ifDescr r c w w')
    (known : c = 7 → (w.device r.ifIndex).deviceid = r.deviceid) :
    w'.relations =
      if c = 7 then add Relation.link w.relations (r.relation sysName ifDescr)
      else w.relations := by
  rw [read.relations]
  split_ifs with h7
  · rw [appendRelation_eq, known h7]
    rfl
  · rfl

/-- A port cell comes after the device id of its own row, which then is the one in
the dictionary. -/
theorem Collected.read {rows : List Row} {front : List (Row × Nat)} {w w' : Walk}
    (h : Collected sysName ifDescr rows front w) {r : Row} {c : Nat} (hr : r ∈ rows)
    (own : ∀ s, (s, 6) ∈ front → s.ifIndex = r.ifIndex → s = r)
    (before : c = 7 → (r, 6) ∈ front) (printable : c = 4 → Printable r.address)
    (read : CellRead sysName ifDescr r c w w') :
    Collected sysName ifDescr rows (front ++ [(r, c)]) w' := by
  have relations := read.relations_eq fun h7 => h.deviceids r (before h7)
  constructor
  case visited => exact h.visited.read printable read
  case deviceids =>
    intro s hs
    rw [read.deviceid]
    split_ifs with hc
    · rcases List.mem_append.mp hs with hs | hs
      · rw [own s hs hc.2]
      · cases List.mem_singleton.mp hs
        rfl
    · rcases List.mem_append.mp hs with hs | hs
      · exact h.deviceids s hs
      · cases List.mem_singleton.mp hs
        exact absurd ⟨rfl, rfl⟩ hc
  case nodup =>
    rw [relations]
    split_ifs
    · exact nodup_add h.nodup _
    · exact h.nodup
  case present =>
    intro s hs
    rw [relations]
    rcases List.mem_append.mp hs with hs | hs
    · split_ifs
      · exact (keys_add _ _ _).mpr (Or.inl (h.present s hs))
      · exact h.present s hs
    · cases List.mem_singleton.mp hs
      rw [if_pos rfl]
      exact (keys_add _ _ _).mpr (Or.inr rfl)
  case fromRows =>
    intro x hx
    rw [relations] at hx
    split_ifs at hx
    · rcases mem_add hx with hx | rfl
      · exact h.fromRows x hx
      · exact ⟨r, hr, rfl⟩
    · exact h.fromRows x hx

/-- A walk of printable rows on interfaces of their own is read to the end. -/
theorem readCells_collected (answers : Answers snmp table sysName ifDescr)
    (nodup : (table.rows.map Row.ifIndex).Nodup)
    (printable : ∀ r ∈ table.rows, Printable r.address) :
    ∃ w, readCells snmp ⟨∅, [], ""⟩ table.cells = .ok w ∧
      Collected sysName ifDescr table.rows table.cells w := by
  apply foldlM_ok (collected_nil table.rows)
  rintro front ⟨r, c⟩ back w split h
  have sorted := split ▸ table.cells_sorted
  have inRows : ∀ p, p ∈ front ∨ p = (r, c) → p.1 ∈ table.rows := by
    intro p hp
    apply ((table.mem_cells p).mp _).1
    rw [split]
    rcases hp with hp | rfl
    · exact List.mem_append_left _ hp
    · exact List.mem_append_right _ List.mem_cons_self
  have hr : r ∈ table.rows := inRows (r, c) (Or.inr rfl)
  obtain ⟨w', run, read⟩ := readCell_ok answers h.visited.named fun _ : c = 4 => printable r hr
  refine ⟨w', run, h.read hr ?_ ?_ (fun _ => printable r hr) read⟩
  · intro s hs same
    exact List.inj_on_of_nodup_map nodup (inRows (s, 6) (Or.inl hs)) hr same
  · -- the device id column is passed, because the columns are in order
    intro h7
    have cell : (r, 6) ∈ table.cells := (table.mem_cells _).mpr ⟨hr, table.hasDeviceid⟩
    rw [split, List.mem_append, List.mem_cons] at cell
    rcases cell with cell | cell | cell
    · exact cell
    · cases cell
      cases h7
    · have le := (List.pairwise_cons.mp (List.pairwise_append.mp sorted).2.1).1 _ cell
      simp only at le
      omega

/-! ## The report -/

/-- The devices of the dictionary in the order of its keys. -/
theorem Walk.entries_map (w : Walk) :
    w.neighbors.entries.map Sigma.snd = w.neighbors.keys.map w.device := by
  rw [AList.keys, List.keys, List.map_map]
  apply List.map_congr_left
  intro e he
  have found : w.neighbors.lookup e.1 = some e.2 := AList.mem_lookup_iff.mpr he
  simp [Walk.device, found]

theorem Visited.mem_keys (h : Visited sysName table.cells w) (j : Nat) :
    j ∈ w.neighbors.keys ↔ j ∈ table.rows.map Row.ifIndex := by
  rw [← AList.mem_keys, h.keys, List.mem_map]
  constructor
  · rintro ⟨p, hp, rfl⟩
    exact ⟨p.1, ((table.mem_cells p).mp hp).1, rfl⟩
  · rintro ⟨r, hr, rfl⟩
    exact ⟨(r, 4), (table.mem_cells _).mpr ⟨hr, table.hasAddress⟩, rfl⟩

/-- As many devices as rows means that no interface has two rows. -/
theorem Visited.nodup_of_length (h : Visited sysName table.cells w)
    (all : w.neighbors.keys.length = table.rows.length) :
    (table.rows.map Row.ifIndex).Nodup := by
  have sub : w.neighbors.keys.Subperm (table.rows.map Row.ifIndex) :=
    w.neighbors.keys_nodup.subperm fun j hj => (h.mem_keys j).mp hj
  have perm := sub.perm_of_length_le (by simp [all])
  exact perm.nodup_iff.mp w.neighbors.keys_nodup

theorem Collected.reports (h : Collected sysName ifDescr table.rows table.cells w)
    (nodup : (table.rows.map Row.ifIndex).Nodup) :
    Reports table sysName ifDescr (w.neighbors.entries.map Sigma.snd) w.relations where
  devices := by
    have keys : w.neighbors.keys.Perm (table.rows.map Row.ifIndex) :=
      (List.perm_ext_iff_of_nodup w.neighbors.keys_nodup nodup).mpr h.visited.mem_keys
    have ids : table.rows.map (fun r => (w.device r.ifIndex).deviceid) =
        table.rows.map Row.deviceid := by
      apply List.map_congr_left
      intro r hr
      exact h.deviceids r ((table.mem_cells _).mpr ⟨hr, table.hasDeviceid⟩)
    have perm := keys.map (CdpDevice.deviceid ∘ w.device)
    rw [List.map_map] at perm
    rw [w.entries_map, List.map_map, ← ids]
    exact perm
  relations := by
    apply isLinkList_of_keys h.nodup
    · intro x hx
      obtain ⟨r, hr, rfl⟩ := List.mem_map.mp hx
      exact h.present r ((table.mem_cells _).mpr ⟨hr, table.hasDeviceport⟩)
    · intro x hx
      obtain ⟨r, hr, rfl⟩ := h.fromRows x hx
      exact List.mem_map_of_mem hr

/-- The program reports a table row by row exactly when no two rows share an
interface and every address can be printed. -/
theorem getCdpNeighbors_reports_iff (answers : Answers snmp table sysName ifDescr) :
    (∃ devices relations, getCdpNeighbors snmp = .ok (devices, relations) ∧
      Reports table sysName ifDescr devices relations) ↔
    (table.rows.map Row.ifIndex).Nodup ∧ ∀ r ∈ table.rows, Printable r.address := by
  rw [getCdpNeighbors_eq answers]
  constructor
  · rintro ⟨devices, relations, run, reports⟩
    cases walked : readCells snmp ⟨∅, [], ""⟩ table.cells with
    | error e =>
        rw [walked] at run
        cases run
    | ok w =>
        rw [walked] at run
        cases run
        have visited := readCells_visited answers walked
        constructor
        · apply visited.nodup_of_length
          have all := reports.devices.length_eq
          rw [w.entries_map] at all
          simpa using all
        · intro r hr
          exact visited.printable (r, 4) ((table.mem_cells _).mpr ⟨hr, table.hasAddress⟩) rfl
  · rintro ⟨nodup, printable⟩
    obtain ⟨w, walked, collected⟩ := readCells_collected answers nodup printable
    rw [walked]
    exact ⟨_, _, rfl, collected.reports nodup⟩

end Session

/-! ## Two neighbours on one interface -/

/-- A session that answers for a table. -/
def sessionOf (table : CdpTable) (sysName : String) (ifDescr : Nat → String) : SnmpSession where
  snmpGet oid :=
    if oid = oidSysname then some (oid, sysName)
    else oid.getLast?.map fun i => (oid, ifDescr i)
  snmpGetnext oid := if oid = oidCdpCacheEntry then table.walk else []

theorem sessionOf_answers (table : CdpTable) (sysName : String) (ifDescr : Nat → String) :
    Answers (sessionOf table sysName ifDescr) table sysName ifDescr where
  walk := by simp [sessionOf]
  sysName := rfl
  ifDescr i := by simp [snmpValue, sessionOf, oidSysname, oidIfDescr]

/-- A row with an address that can be printed. -/
def neighbourRow (ifIndex deviceIndex : Nat) (deviceid deviceport : String) : Row where
  ifIndex := ifIndex
  deviceIndex := deviceIndex
  cell
    | 4 => "0x0a000001"
    | 6 => deviceid
    | 7 => deviceport
    | _ => ""

theorem neighbourRow_printable (ifIndex deviceIndex : Nat) (deviceid deviceport : String) :
    Printable (neighbourRow ifIndex deviceIndex deviceid deviceport).address := by
  have text : addressText "0x0a000001" = .ok "0.10.0.0" := by decide
  exact ⟨"0.10.0.0", text⟩

/-- A table of two rows with the columns that the program reads. -/
def twoRows (r s : Row) (sorted : r.ifIndex < s.ifIndex ∨
    r.ifIndex = s.ifIndex ∧ r.deviceIndex < s.deviceIndex) : CdpTable where
  columns := [4, 6, 7]
  rows := [r, s]
  columnsSorted := by decide
  rowsSorted := List.pairwise_pair.mpr sorted
  hasAddress := by decide
  hasDeviceid := by decide
  hasDeviceport := by decide

def east (ifIndex deviceIndex : Nat) : Row := neighbourRow ifIndex deviceIndex "east" "p1"
def west (ifIndex deviceIndex : Nat) : Row := neighbourRow ifIndex deviceIndex "west" "p2"

def twoInterfaces : CdpTable := twoRows (east 1 1) (west 2 1) (Or.inl (by decide))
def oneInterface : CdpTable := twoRows (east 1 1) (west 1 2) (Or.inr (by decide))

theorem twoInterfaces_reports :
    ∃ devices relations,
      getCdpNeighbors (sessionOf twoInterfaces "core" fun _ => "eth") = .ok (devices, relations) ∧
        Reports twoInterfaces "core" (fun _ => "eth") devices relations := by
  apply (getCdpNeighbors_reports_iff (sessionOf_answers twoInterfaces "core" fun _ => "eth")).mpr
  constructor
  · decide
  · intro r hr
    simp only [twoInterfaces, twoRows, List.mem_cons, List.not_mem_nil, or_false] at hr
    rcases hr with rfl | rfl
    · exact neighbourRow_printable 1 1 "east" "p1"
    · exact neighbourRow_printable 2 1 "west" "p2"

/-- The second device takes the place of the first, also in the relation of the first row. -/
theorem oneInterface_run :
    getCdpNeighbors (sessionOf oneInterface "core" fun _ => "eth") =
      .ok ([⟨"west", "", "0.10.0.0"⟩],
        [⟨"core", "eth", "west", "p1"⟩, ⟨"core", "eth", "west", "p2"⟩]) := rfl

theorem oneInterface_mixed :
    Answers (sessionOf oneInterface "core" fun _ => "eth") oneInterface "core" (fun _ => "eth") ∧
      ¬ ∃ devices relations,
        getCdpNeighbors (sessionOf oneInterface "core" fun _ => "eth") = .ok (devices, relations) ∧
          Reports oneInterface "core" (fun _ => "eth") devices relations := by
  refine ⟨sessionOf_answers _ _ _, ?_⟩
  rintro ⟨devices, relations, run, reports⟩
  cases oneInterface_run.symm.trans run
  have count := reports.relations.once ((east 1 1).relation "core" fun _ => "eth")
    (List.mem_map_of_mem List.mem_cons_self)
  revert count
  decide

end SamplePrograms.CdpWalker
