import SamplePrograms.Icmp.Messages

/-!
# Replies to the probes of `traceroute`

A probe is a UDP datagram whose source port stands for the process and whose destination port
stands for the probe. An ICMP error quotes the IP header of the datagram and the UDP header behind
it, and `packet_ok` looks for the two ports there.

## Implementation notes

The source has two versions of the program with this function in common. The listing of other
packets under `-v` is left out. A quoted header of up to 60 bytes behind a header of up to 60 bytes
lies within the 512 bytes of the buffer.
-/

namespace SamplePrograms.Traceroute
open Icmp

/-- `ident` and `port`. -/
structure Ports where
  ident : BitVec 16
  port : BitVec 16

/-- `(getpid() & 0xffff) | 0x8000`. -/
def identOf (pid : ℕ) : BitVec 16 := .ofNat 16 pid ||| 0x8000

/-- `port + seq` as it is stored in the header. -/
def Ports.dport (ports : Ports) (seq : ℕ) : BitVec 16 := ports.port + .ofNat 16 seq

/-- `packet_ok`: the result and the new value of `nextmtu`. -/
def packetOk (ports : Ports) (seq : ℕ) (nextmtu : ℕ) (p : Packet) : ℤ × ℕ :=
  if p.TooShort then (0, nextmtu)
  else
    let cc := p.cc - p.buf.hlen
    let icp := p.buf.hlen
    let type := p.buf icp
    let code := p.buf (icp + 1)
    if (type = 11 ∧ code = 0) ∨ type = 3 then
      let hip := icp + 8
      let hlen := (p.buf hip).toNat % 16 * 4
      let up := hip + hlen
      if hlen + 12 ≤ cc ∧ p.buf (hip + 9) = 17 ∧ p.buf.short .big up = ports.ident ∧
          p.buf.short .big (up + 2) = ports.dport seq then
        (if type = 11 then -1 else code.toNat + 1, p.buf.ntohl (icp + 4))
      else (0, p.buf.ntohl (icp + 4))
    else (0, nextmtu)

/-- The UDP header that `send_probe` writes. -/
def udphdr (ports : Ports) (seq : ℕ) (datalen : ℤ) : List Byte :=
  ByteOrder.big.bytes ports.ident ++ ByteOrder.big.bytes (ports.dport seq) ++
    ByteOrder.big.bytes (.ofInt 16 (datalen - 20)) ++ [0, 0]

/-- The IP header of a UDP datagram. -/
structure UdpDatagram where
  header : List Byte
  hlen : header.length = (header.getD 0 0).toNat % 16 * 4
  long : 20 ≤ header.length
  protocol : header.getD 9 0 = 17

/-- The ICMP errors about a datagram on its way. -/
inductive Report where
  | timeExceeded
  | unreachable (code : Byte) (nextmtu : BitVec 32)

namespace Report

def type : Report → Byte
  | timeExceeded => 11
  | unreachable .. => 3

def code : Report → Byte
  | timeExceeded => 0
  | unreachable code _ => code

/-- `icmp_void`, where newer routers put the MTU of the next hop. -/
def void : Report → BitVec 32
  | timeExceeded => 0
  | unreachable _ nextmtu => nextmtu

/-- What `packet_ok` returns for a report about the probe. -/
def result : Report → ℤ
  | timeExceeded => -1
  | unreachable code _ => code.toNat + 1

/-- The ICMP message with a report about a datagram. A host may quote more than the headers. -/
def message (order : ByteOrder) (r : Report) (ip : UdpDatagram) (udp rest : List Byte) :
    List Byte :=
  sealed order [r.type, r.code] (htonl r.void.toNat ++ ip.header ++ udp ++ rest)

theorem result_ne_zero (r : Report) : r.result ≠ 0 := by
  cases r with
  | timeExceeded => decide
  | unreachable code nextmtu =>
      rw [result]
      omega

end Report

/-! ## Ports -/

theorem toNat_dport (ports : Ports) (seq : ℕ) :
    (ports.dport seq).toNat = (ports.port.toNat + seq) % 65536 := by
  rw [Ports.dport, BitVec.toNat_add, BitVec.toNat_ofNat]
  omega

theorem identOf_eq (pid : ℕ) : identOf pid = (BitVec.ofNat 15 pid).setWidth 16 ||| 0x8000 := by
  ext i hi
  obtain h | rfl : i < 15 ∨ i = 15 := by omega
  · rw [identOf, BitVec.getElem_or, BitVec.getElem_or, BitVec.getElem_setWidth,
      ← BitVec.getLsbD_eq_getElem, BitVec.getLsbD_ofNat, BitVec.getLsbD_ofNat, decide_eq_true h,
      decide_eq_true hi]
  · simp [identOf]

/-- The sixteenth bit of the process id is lost. -/
theorem identOf_inj {pid pid' : ℕ} : identOf pid = identOf pid' ↔ pid % 32768 = pid' % 32768 := by
  have low : ∀ pid, (identOf pid).setWidth 15 = .ofNat 15 pid := by
    intro pid
    rw [identOf, BitVec.setWidth_or, BitVec.setWidth_ofNat_of_le (by decide)]
    exact BitVec.or_zero
  have same : BitVec.ofNat 15 pid = .ofNat 15 pid' ↔ pid % 32768 = pid' % 32768 := by
    rw [← BitVec.toNat_inj, BitVec.toNat_ofNat, BitVec.toNat_ofNat]
  rw [← same]
  constructor
  · intro h
    rw [← low, ← low, h]
  · intro h
    rw [identOf_eq, identOf_eq, h]

/-! ## Reports -/

section Reports
variable {ports sender : Ports} {order : ByteOrder} {seq seq' hlen : ℕ} {datalen : ℤ}
  {r : Report} {ip : UdpDatagram} {rest : List Byte} {p : Packet}

/-- The fields of a report in the buffer. -/
theorem fields_message
    (carries : p.Carries hlen (r.message order ip (udphdr sender seq' datalen) rest)) :
    p.buf hlen = r.type ∧ p.buf (hlen + 1) = r.code ∧ p.buf.ntohl (hlen + 4) = r.void.toNat ∧
      (p.buf (hlen + 8)).toNat % 16 * 4 = ip.header.length ∧ p.buf (hlen + 8 + 9) = 17 ∧
      p.buf.short .big (hlen + 8 + ip.header.length) = sender.ident ∧
      p.buf.short .big (hlen + 8 + ip.header.length + 2) = sender.dport seq' ∧
      p.cc = hlen + 16 + ip.header.length + rest.length := by
  obtain ⟨header, length, message⟩ := carries
  rw [Report.message, sealed, udphdr] at message length
  simp only [Buffer.holds_append, List.length_append, length_bytes, htonl, List.length_cons,
    List.length_nil] at message length
  obtain ⟨⟨⟨type, code, -⟩, -⟩, ⟨⟨void, quoted⟩, ⟨⟨sport, dport⟩, -⟩, -⟩, -⟩ := message
  have first := (p.buf.holds_iff _ _).mp quoted 0 (by have := ip.long; omega)
  have ninth := (p.buf.holds_iff _ _).mp quoted 9 (by have := ip.long; omega)
  refine ⟨type, code, Buffer.ntohl_of_holds r.void.isLt void, ?_, ninth.trans ip.protocol,
    ?_, ?_, by omega⟩
  · rw [ip.hlen, ← first]
  · exact Buffer.short_of_holds (by convert sport using 1; omega)
  · exact Buffer.short_of_holds (by convert dport using 1; omega)

/-- `packet_ok` for a report about a probe of some process. -/
theorem packetOk_message
    (carries : p.Carries hlen (r.message order ip (udphdr sender seq' datalen) rest))
    (nextmtu : ℕ) :
    packetOk ports seq nextmtu p =
      (if sender.ident = ports.ident ∧ sender.dport seq' = ports.dport seq then r.result else 0,
        r.void.toNat) := by
  obtain ⟨type, code, void, length, protocol, sport, dport, cc⟩ := fields_message carries
  have long : ¬ p.TooShort := by
    rw [Packet.TooShort, carries.header, cc, icmpMinlen]
    omega
  have quoted : ip.header.length + 12 ≤ p.cc - hlen := by
    rw [cc]
    omega
  have kind : (r.type = 11 ∧ r.code = 0) ∨ r.type = 3 := by
    cases r with
    | timeExceeded => exact .inl ⟨rfl, rfl⟩
    | unreachable code nextmtu => exact .inr rfl
  have value : (if r.type = 11 then -1 else (r.code.toNat : ℤ) + 1) = r.result := by
    cases r <;> rfl
  rw [packetOk, if_neg long]
  simp only [carries.header, type, code, void, length, protocol, sport, dport, quoted, true_and,
    if_pos kind, value]
  split <;> rfl

/-- A process takes a report for one about its probe exactly if the process ids agree up to a
multiple of 32768 and the destination ports up to a multiple of 65536. -/
theorem report_accepted {pid pid' : ℕ} {port port' : BitVec 16} (carries : p.Carries hlen
      (r.message order ip (udphdr ⟨identOf pid', port'⟩ seq' datalen) rest)) (nextmtu : ℕ) :
    (packetOk ⟨identOf pid, port⟩ seq nextmtu p).1 =
      if pid' % 32768 = pid % 32768 ∧ (port'.toNat + seq') % 65536 = (port.toNat + seq) % 65536
      then r.result else 0 := by
  have ports : (port' + .ofNat 16 seq' : BitVec 16) = port + .ofNat 16 seq ↔
      (port'.toNat + seq') % 65536 = (port.toNat + seq) % 65536 := by
    have sum := toNat_dport ⟨identOf pid, port⟩ seq
    have sum' := toNat_dport ⟨identOf pid', port'⟩ seq'
    rw [← sum, ← sum', BitVec.toNat_inj, Ports.dport, Ports.dport]
  rw [packetOk_message carries]
  simp only [identOf_inj, Ports.dport, ports]

/-- A header of 20 bytes. -/
def plainHeader : UdpDatagram where
  header := [0x45, 0, 0, 40, 0, 0, 0, 0, 1, 17, 0, 0, 0, 0, 0, 0, 0, 0, 0, 0]
  hlen := rfl
  long := by decide
  protocol := rfl

theorem report_accepted_other :
    (packetOk ⟨identOf 33000, 33434⟩ 5 0 (packetOf (Report.timeExceeded.message .little plainHeader
      (udphdr ⟨identOf 232, 33434⟩ 5 40) []))).1 = -1 :=
  report_accepted (packetOf_carries _) 0

end Reports

end SamplePrograms.Traceroute
