import SamplePrograms.Icmp.Checksum

/-!
# Received packets

A raw socket delivers a packet with its IP header, whose length is a field of its first byte. The
programs read the fields of the ICMP message behind the header in place.

## Implementation notes

The buffer of a program has a byte at each offset. The bytes behind a packet are what earlier
packets left there. A header has at most 60 bytes, so that no field lies behind the 148 bytes that
the programs allocate.
-/

namespace SamplePrograms.Icmp

/-- An Internet address in network byte order. -/
abbrev InAddr := BitVec 32

/-- The four bytes of `htonl`. -/
def htonl (n : ℕ) : List Byte :=
  [.ofNat 8 (n / 2 ^ 24), .ofNat 8 (n / 2 ^ 16), .ofNat 8 (n / 2 ^ 8), .ofNat 8 n]

theorem length_bytes (order : ByteOrder) (w : BitVec 16) : (order.bytes w).length = 2 := by
  cases order <;> rfl

/-- What a host finds behind the checksum. -/
theorem drop_sealed (order : ByteOrder) (type code : Byte) (back : List Byte) :
    (sealed order [type, code] back).drop 4 = back := by
  obtain ⟨first, second, bytes, -⟩ :=
    exists_bytes order (inCksum order ([type, code] ++ [0, 0] ++ back))
  rw [sealed, bytes]
  rfl

abbrev Buffer := ℕ → Byte

namespace Buffer

/-- The `u_short` at an offset. -/
def short (order : ByteOrder) (buf : Buffer) (k : ℕ) : BitVec 16 :=
  order.word (buf k) (buf (k + 1))

/-- `ntohl` of the four bytes at an offset. -/
def ntohl (buf : Buffer) (k : ℕ) : ℕ :=
  2 ^ 24 * (buf k).toNat + 2 ^ 16 * (buf (k + 1)).toNat + 2 ^ 8 * (buf (k + 2)).toNat +
    (buf (k + 3)).toNat

/-- `ip->ip_hl << 2`. -/
def hlen (buf : Buffer) : ℕ := (buf 0).toNat % 16 * 4

/-- The buffer has the bytes from an offset on. -/
def Holds (buf : Buffer) : ℕ → List Byte → Prop
  | _, [] => True
  | k, b :: rest => buf k = b ∧ Holds buf (k + 1) rest

@[simp] theorem holds_nil (buf : Buffer) (k : ℕ) : buf.Holds k [] := trivial

@[simp] theorem holds_cons (buf : Buffer) (k : ℕ) (b : Byte) (rest : List Byte) :
    buf.Holds k (b :: rest) ↔ buf k = b ∧ buf.Holds (k + 1) rest := Iff.rfl

theorem holds_append (buf : Buffer) (k : ℕ) (l l' : List Byte) :
    buf.Holds k (l ++ l') ↔ buf.Holds k l ∧ buf.Holds (k + l.length) l' := by
  induction l generalizing k with
  | nil => simp
  | cons b rest ih =>
      rw [List.cons_append, holds_cons, holds_cons, ih, List.length_cons, and_assoc]
      have shift : k + 1 + rest.length = k + (rest.length + 1) := by omega
      rw [shift]

theorem holds_iff (buf : Buffer) (k : ℕ) (l : List Byte) :
    buf.Holds k l ↔ ∀ i, i < l.length → buf (k + i) = l.getD i 0 := by
  induction l generalizing k with
  | nil => simp
  | cons b rest ih =>
      rw [holds_cons, ih]
      constructor
      · rintro ⟨first, later⟩ i hi
        cases i with
        | zero => exact first
        | succ i =>
            have next := later i (by simpa using hi)
            rw [Nat.add_assoc, Nat.add_comm 1] at next
            exact next
      · intro all
        refine ⟨all 0 (by simp), fun i hi => ?_⟩
        have next := all (i + 1) (by simpa using hi)
        rw [Nat.add_assoc, Nat.add_comm 1]
        exact next

/-- A stored `u_short` is read back. -/
theorem short_of_holds {order : ByteOrder} {buf : Buffer} {k : ℕ} {w : BitVec 16}
    (h : buf.Holds k (order.bytes w)) : buf.short order k = w := by
  obtain ⟨first, second, bytes, word⟩ := exists_bytes order w
  rw [bytes] at h
  rw [short, h.1, h.2.1, word]

/-- A stored long is read back. -/
theorem ntohl_of_holds {buf : Buffer} {k n : ℕ} (small : n < 2 ^ 32) (h : buf.Holds k (htonl n)) :
    buf.ntohl k = n := by
  obtain ⟨h0, h1, h2, h3, -⟩ := h
  simp only [ntohl, h0, h1, h2, h3, BitVec.toNat_ofNat]
  omega

end Buffer

/-- A packet in the buffer, its length, and the host that it comes from. -/
structure Packet where
  buf : Buffer
  cc : ℕ
  source : InAddr

/-- `ICMP_MINLEN`. -/
def icmpMinlen : ℕ := 8

/-- The test of the IP header. -/
def Packet.TooShort (p : Packet) : Prop := p.cc < p.buf.hlen + icmpMinlen

instance (p : Packet) : Decidable p.TooShort := inferInstanceAs (Decidable (_ < _))

/-- `icp->icmp_type`. -/
def Packet.icmpType (p : Packet) : Byte := p.buf p.buf.hlen

/-- An ICMP message behind an IP header of the given length. -/
structure Packet.Carries (p : Packet) (hlen : ℕ) (message : List Byte) : Prop where
  header : p.buf.hlen = hlen
  length : p.cc = hlen + message.length
  message : p.buf.Holds hlen message

/-- A packet with a header of 20 bytes. -/
def packetOf (message : List Byte) : Packet where
  buf := fun k => if k = 0 then 0x45 else if k < 20 then 0 else message.getD (k - 20) 0
  cc := 20 + message.length
  source := 0

theorem packetOf_carries (message : List Byte) : (packetOf message).Carries 20 message where
  header := by simp [Buffer.hlen, packetOf]
  length := rfl
  message := by
    rw [Buffer.holds_iff]
    intro i _
    have behind : ¬ 20 + i < 20 := by omega
    simp [packetOf, behind]

end SamplePrograms.Icmp
