import SamplePrograms.CdpWalker.Rows
import Mathlib.Tactic.IntervalCases

/-!
# The addresses that `get_cdp_neighbors` stores

An address arrives as eight hexadecimal digits behind `0x`. The program makes a number of each of
the first four digits, and so prints the halves of two octets in place of the four octets. The
text is the address in dotted decimal form for one address only.

## Implementation notes

Of the rows with one interface, the last one leaves its address in the dictionary.
-/

namespace SamplePrograms.CdpWalker
open Loops

/-! ## Addresses -/

/-- An address of four octets. -/
structure Ipv4 where
  first : BitVec 8
  second : BitVec 8
  third : BitVec 8
  fourth : BitVec 8
  deriving DecidableEq

/-- The text of four numbers with dots between them. -/
def dottedText (a b c d : Nat) : String := s!"{a}.{b}.{c}.{d}"

namespace Ipv4

def dotted (a : Ipv4) : String :=
  dottedText a.first.toNat a.second.toNat a.third.toNat a.fourth.toNat

/-- The address `0.0.0.0`. -/
def any : Ipv4 := ⟨0, 0, 0, 0⟩

end Ipv4

/-- A hexadecimal digit in either case. -/
def IsHexDigit (n : Nat) (c : Char) : Prop := c = Nat.digitChar n ∨ c = (Nat.digitChar n).toUpper

/-- The two digits of each octet. -/
inductive HexDigits : List (BitVec 8) → List Char → Prop
  | nil : HexDigits [] []
  | octet {o : BitVec 8} {octets : List (BitVec 8)} {hi lo : Char} {digits : List Char}
      (high : IsHexDigit (o.toNat / 16) hi) (low : IsHexDigit (o.toNat % 16) lo)
      (rest : HexDigits octets digits) : HexDigits (o :: octets) (hi :: lo :: digits)

/-- The value is the printed form of the address. -/
def Ipv4.PrintedAs (a : Ipv4) (value : String) : Prop :=
  ∃ digits, value.toList = '0' :: 'x' :: digits ∧
    HexDigits [a.first, a.second, a.third, a.fourth] digits

/-! ## The text of an address cell -/

theorem hexAt_digit {value : String} {i n : Nat} {c : Char} (at_index : value.toList[i]? = some c)
    (small : n < 16) (digit : IsHexDigit n c) : hexAt value i = .ok n := by
  rw [hexAt, at_index]
  rcases digit with rfl | rfl
  · interval_cases n <;> rfl
  · interval_cases n <;> rfl

/-- The program reads the digits of the first two octets. -/
theorem addressText_printed {a : Ipv4} {value : String} (printed : a.PrintedAs value) :
    addressText value = .ok (dottedText (a.first.toNat / 16) (a.first.toNat % 16)
      (a.second.toNat / 16) (a.second.toNat % 16)) := by
  obtain ⟨digits, split, hex⟩ := printed
  obtain _ | ⟨high₁, low₁, hex⟩ := hex
  obtain _ | ⟨high₂, low₂, hex⟩ := hex
  have first := a.first.isLt
  have second := a.second.isLt
  rw [addressText, hexAt_digit (i := 2) (by rw [split]; rfl) (by omega) high₁,
    hexAt_digit (i := 3) (by rw [split]; rfl) (by omega) low₁,
    hexAt_digit (i := 4) (by rw [split]; rfl) (by omega) high₂,
    hexAt_digit (i := 5) (by rw [split]; rfl) (by omega) low₂]
  rfl

/-- The digits up to a dot determine the number. -/
theorem toDigits_dot_inj {m n : Nat} {r s : List Char}
    (h : Nat.toDigits 10 m ++ '.' :: r = Nat.toDigits 10 n ++ '.' :: s) : m = n ∧ r = s := by
  have noDot : ∀ k, ∀ d ∈ Nat.toDigits 10 k, (d != '.') = true := by
    intro k d hd
    have digit := Nat.isDigit_of_mem_toDigits (by decide) (by decide) hd
    rw [bne_iff_ne]
    rintro rfl
    exact absurd digit (by decide)
  have upTo : ∀ k t, (Nat.toDigits 10 k ++ '.' :: t).takeWhile (· != '.') = Nat.toDigits 10 k := by
    intro k t
    rw [List.takeWhile_append_of_pos (noDot k), List.takeWhile_cons_of_neg (by decide),
      List.append_nil]
  have digits : Nat.toDigits 10 m = Nat.toDigits 10 n := by
    rw [← upTo m r, h, upTo n s]
  constructor
  · calc m = Nat.ofDigitChars 10 (Nat.toDigits 10 m) 0 := Nat.ofDigitChars_ten_toDigits.symm
      _ = Nat.ofDigitChars 10 (Nat.toDigits 10 n) 0 := by rw [digits]
      _ = n := Nat.ofDigitChars_ten_toDigits
  · rw [digits] at h
    exact (List.cons.inj (List.append_cancel_left h)).2

theorem dottedText_inj {a b c d a' b' c' d' : Nat}
    (h : dottedText a b c d = dottedText a' b' c' d') : a = a' ∧ b = b' ∧ c = c' ∧ d = d' := by
  have dot : (toString ".").toList = ['.'] := rfl
  have text : ∀ a b c d, (dottedText a b c d).toList ++ ['.'] =
      Nat.toDigits 10 a ++ '.' :: (Nat.toDigits 10 b ++ '.' :: (Nat.toDigits 10 c ++
        '.' :: (Nat.toDigits 10 d ++ '.' :: []))) := by
    intro a b c d
    simp [dottedText, dot]
  have both := text a b c d
  rw [h, text a' b' c' d'] at both
  obtain ⟨first, both⟩ := toDigits_dot_inj both
  obtain ⟨second, both⟩ := toDigits_dot_inj both
  obtain ⟨third, both⟩ := toDigits_dot_inj both
  obtain ⟨fourth, -⟩ := toDigits_dot_inj both
  exact ⟨first.symm, second.symm, third.symm, fourth.symm⟩

/-- The text is the dotted form of the address if all octets are zero. Else the first octet that
is not zero is greater than each of its digits. -/
theorem addressText_eq_dotted_iff {a : Ipv4} {value : String} (printed : a.PrintedAs value) :
    addressText value = .ok a.dotted ↔ a = .any := by
  rw [addressText_printed printed, Except.ok.injEq]
  constructor
  · intro h
    obtain ⟨first, second, third, fourth⟩ := dottedText_inj h
    have zero : ∀ {o : BitVec 8}, o.toNat = 0 → o = 0 := fun h => BitVec.eq_of_toNat_eq h
    obtain ⟨a, b, c, d⟩ := a
    simp only at first second third fourth
    rw [Ipv4.any, zero (o := a) (by omega), zero (o := b) (by omega), zero (o := c) (by omega),
      zero (o := d) (by omega)]
  · rintro rfl
    rfl

/-! ## The walk -/

section Session
variable {snmp : SnmpSession} {table : CdpTable} {sysName : String} {ifDescr : Nat → String}
  {w w' : Walk}

theorem address_put (w : Walk) (i j : Nat) (d : CdpDevice) :
    ((w.put i d).device j).address = if j = i then d.address else (w.device j).address := by
  by_cases h : j = i
  · subst h
    simp
  · simp [h, w.device_put_of_ne h]

/-- Only an address cell changes an address, and only that of its interface. -/
theorem readCell_address (answers : Answers snmp table sysName ifDescr)
    (named : w.hostname = "" ∨ w.hostname = sysName) {r : Row} {c : Nat}
    (run : readCell snmp w (r.entry c) = .ok w') (j : Nat) :
    if c = 4 ∧ j = r.ifIndex then addressText r.address = .ok (w'.device j).address
    else (w'.device j).address = (w.device j).address := by
  rw [readCell_entry] at run
  by_cases address : c = 4
  · rw [if_pos address] at run
    cases text : addressText r.address with
    | error e =>
        rw [text] at run
        cases run
    | ok text' =>
        rw [text] at run
        cases run
        split_ifs with h
        · rw [h.2, Walk.device_put]
        · rw [address_put, if_neg fun hj => h ⟨address, hj⟩]
  · rw [if_neg fun h => address h.1]
    rw [if_neg address] at run
    have keeps : ∀ d : CdpDevice, d.address = (w.device r.ifIndex).address →
        ((w.put r.ifIndex d).device j).address = (w.device j).address := by
      intro d same
      rw [address_put, ite_eq_right_iff]
      rintro rfl
      exact same
    split_ifs at run with h6 h7
    · cases run
      exact keeps _ rfl
    · rw [readDevicePort_ok answers (by exact named)] at run
      cases run
      exact keeps _ rfl
    · cases run
      exact keeps _ rfl

/-- Each interface has the address of the last address cell that was passed for it. -/
structure AddressesRead (sysName : String) (front : List (Row × Nat)) (w : Walk) : Prop where
  visited : Visited sysName front w
  last : ∀ before r after, front = before ++ (r, 4) :: after →
    (∀ p ∈ after, p.2 = 4 → p.1.ifIndex ≠ r.ifIndex) →
    addressText r.address = .ok (w.device r.ifIndex).address

theorem AddressesRead.read (answers : Answers snmp table sysName ifDescr)
    {front : List (Row × Nat)} (h : AddressesRead sysName front w) {r : Row} {c : Nat}
    (printable : c = 4 → Printable r.address) :
    ∃ w', readCell snmp w (r.entry c) = .ok w' ∧
      AddressesRead sysName (front ++ [(r, c)]) w' := by
  obtain ⟨w', run, cell⟩ := readCell_ok answers h.visited.named printable
  refine ⟨w', run, h.visited.read printable cell, ?_⟩
  intro before s after split others
  have address := readCell_address answers h.visited.named run s.ifIndex
  rcases List.eq_nil_or_concat' after with rfl | ⟨after, p, rfl⟩
  · -- the new cell is the last one for its interface
    obtain ⟨-, same⟩ := List.append_inj' split rfl
    cases same
    rwa [if_pos ⟨rfl, rfl⟩] at address
  · have split' : front ++ [(r, c)] = before ++ (s, 4) :: after ++ [p] := by
      simpa using split
    obtain ⟨old, same⟩ := List.append_inj' split' rfl
    cases same
    have apart : ¬ (c = 4 ∧ s.ifIndex = r.ifIndex) := by
      rintro ⟨h4, hi⟩
      exact others (r, c) (by simp) h4 hi.symm
    rw [if_neg apart] at address
    rw [address]
    exact h.last before s after old fun p hp => others p (List.mem_append_left _ hp)

/-- The walk of a table whose addresses can all be printed. -/
theorem readCells_addresses (answers : Answers snmp table sysName ifDescr)
    (printable : ∀ r ∈ table.rows, Printable r.address) :
    ∃ w, readCells snmp ⟨∅, [], ""⟩ table.cells = .ok w ∧
      AddressesRead sysName table.cells w := by
  have start : AddressesRead sysName [] ⟨∅, [], ""⟩ :=
    ⟨visited_nil sysName, fun before r after split => by simp at split⟩
  apply foldlM_ok start
  rintro front ⟨r, c⟩ back w split h
  have cell : (r, c) ∈ table.cells := by
    rw [split]
    exact List.mem_append_right _ List.mem_cons_self
  exact h.read answers fun _ => printable r ((table.mem_cells _).mp cell).1

/-- The cells after the address cell of a row. -/
theorem CdpTable.cells_split {front back : List Row} {r : Row}
    (split : table.rows = front ++ r :: back) : ∃ before after,
      table.cells = before ++ (r, 4) :: after ∧ ∀ p ∈ after, p.2 = 4 → p.1 ∈ back := by
  obtain ⟨first, others, columns⟩ := List.append_of_mem table.hasAddress
  have sorted := columns ▸ table.columnsSorted
  have others_ne : ∀ c ∈ others, c ≠ 4 := fun c hc =>
    ((List.pairwise_cons.mp (List.pairwise_append.mp sorted).2.1).1 c hc).ne'
  refine ⟨(first.flatMap fun c => table.rows.map fun r => (r, c)) ++ front.map fun r => (r, 4),
    (back.map fun r => (r, 4)) ++ others.flatMap fun c => table.rows.map fun r => (r, c), ?_, ?_⟩
  · simp only [cells, columns, List.flatMap_append, List.flatMap_cons]
    simp only [split, List.map_append, List.map_cons, List.append_assoc, List.cons_append]
  · intro p hp h4
    rcases List.mem_append.mp hp with hp | hp
    · obtain ⟨s, hs, rfl⟩ := List.mem_map.mp hp
      exact hs
    · obtain ⟨c, hc, hp⟩ := List.mem_flatMap.mp hp
      obtain ⟨s, hs, rfl⟩ := List.mem_map.mp hp
      exact absurd h4 (others_ne c hc)

end Session

/-! ## Two neighbours in one network -/

def addressRow (ifIndex : Nat) (deviceid address : String) : Row where
  ifIndex := ifIndex
  deviceIndex := 1
  cell
    | 4 => address
    | 6 => deviceid
    | 7 => "p1"
    | _ => ""

def twoAddresses : CdpTable :=
  twoRows (addressRow 1 "east" "0x0a000001") (addressRow 2 "west" "0x0A000002") (Or.inl (by decide))

/-- `10.0.0.1` on the first interface, and `10.0.0.2` on the other one. -/
def twoOctets (r : Row) : Ipv4 := if r.ifIndex = 1 then ⟨10, 0, 0, 1⟩ else ⟨10, 0, 0, 2⟩

theorem twoAddresses_printed : ∀ r ∈ twoAddresses.rows, (twoOctets r).PrintedAs r.address := by
  intro r hr
  simp only [twoAddresses, twoRows, List.mem_cons, List.not_mem_nil, or_false] at hr
  rcases hr with rfl | rfl
  · exact ⟨_, rfl, .octet (.inl rfl) (.inl rfl) (.octet (.inl rfl) (.inl rfl)
      (.octet (.inl rfl) (.inl rfl) (.octet (.inl rfl) (.inl rfl) .nil)))⟩
  · exact ⟨_, rfl, .octet (.inl rfl) (.inr rfl) (.octet (.inl rfl) (.inl rfl)
      (.octet (.inl rfl) (.inl rfl) (.octet (.inl rfl) (.inl rfl) .nil)))⟩

end SamplePrograms.CdpWalker
