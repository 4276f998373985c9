import SamplePrograms.Icmp.Messages

/-!
# The gateways of `traceroute`

With `-g` and `-G` the probes carry an IP option with the gateways through which they go. The option
is built in place while the arguments are read, and the destination is its last entry.

## Implementation notes

A `u_long` has four bytes. A gateway is found by its address or by its name; how is left open. The
option is what `setsockopt` gets.
-/

namespace SamplePrograms.Traceroute
open Icmp

/-- `MAX_IPOPTLEN`. -/
def maxIpoptlen : ℕ := 40

/-- `IPOPT_MINOFF`. -/
def ipoptMinoff : ℕ := 4

/-- `-g` or `-G`. -/
inductive Letter where
  | loose
  | strict
  deriving DecidableEq

/-- `IPOPT_LSRR` or `IPOPT_SSRR`. -/
def Letter.option : Letter → Byte
  | loose => 131
  | strict => 137

/-- An exit of the program, or a write behind `optlist`. -/
inductive Exit where
  | tooMany
  | unknownHost
  | pastOptlist
  deriving DecidableEq

/-- `optlist`, `oix` as its offset there, and `lsrr`. -/
structure RouteOption where
  optlist : List Byte
  oix : ℕ
  lsrr : ℕ

/-- `bcopy` to an offset of `optlist`. -/
def bcopy (bytes : List Byte) (k : ℕ) (optlist : List Byte) : Except Exit (List Byte) :=
  if k + bytes.length ≤ optlist.length then
    .ok (optlist.take k ++ bytes ++ optlist.drop (k + bytes.length))
  else .error .pastOptlist

/-- The bytes of an address. -/
def addrBytes (a : InAddr) : List Byte := htonl a.toNat

section Arguments
variable {α : Type*}

/-- One of the arguments `-g` and `-G`. -/
def gateway (resolve : α → Option InAddr) (s : RouteOption) (arg : Letter × α) :
    Except Exit RouteOption :=
  if (maxIpoptlen - ipoptMinoff) / 4 ≤ s.lsrr + 1 then .error .tooMany
  else
    let s := if s.lsrr = 0 then
        { s with
          optlist := [arg.1.option, 0, .ofNat 8 ipoptMinoff] ++ List.replicate (maxIpoptlen - 3) 0
          oix := 3 }
      else s
    match resolve arg.2 with
    | none => .error .unknownHost
    | some gw =>
        match bcopy (addrBytes gw) s.oix s.optlist with
        | .error e => .error e
        | .ok optlist => .ok ⟨optlist, s.oix + 4, s.lsrr + 1⟩

/-- The loop that pads to a multiple of four. -/
def pad (oix : ℕ) : ℕ := (oix + 3) / 4 * 4

/-- What is passed to `setsockopt` when there are gateways. -/
def finish (sinAddr : InAddr) (s : RouteOption) : Except Exit (Option (List Byte)) :=
  if 0 < s.lsrr then
    let lsrr := s.lsrr + 1
    let optlist := s.optlist.set 1 (.ofNat 8 (ipoptMinoff - 1 + lsrr * 4))
    match bcopy (addrBytes sinAddr) s.oix optlist with
    | .error e => .error e
    | .ok optlist => .ok (some (optlist.take (pad (s.oix + 4))))
  else .ok none

def routeOption (resolve : α → Option InAddr) (sinAddr : InAddr)
    (args : List (Letter × α)) :
    Except Exit (Option (List Byte)) :=
  match args.foldlM (gateway resolve) ⟨List.replicate maxIpoptlen 0, 0, 0⟩ with
  | .error e => .error e
  | .ok s => finish sinAddr s

end Arguments

/-! ## The option -/

/-- The addresses of a source route. -/
def addresses : List Byte → List InAddr
  | a :: b :: c :: d :: rest =>
      .ofNat 32 (2 ^ 24 * a.toNat + 2 ^ 16 * b.toNat + 2 ^ 8 * c.toNat + d.toNat) :: addresses rest
  | _ => []

/-- A host reads a source route: its kind, its length, the offset of the next address and the
addresses. -/
def readRoute : List Byte → Option (Byte × List InAddr)
  | kind :: length :: ptr :: rest =>
      if ptr = 4 ∧ 3 ≤ length.toNat ∧ length.toNat - 3 ≤ rest.length then
        some (kind, addresses (rest.take (length.toNat - 3)))
      else none
  | _ => none

theorem addresses_flatMap (addrs : List InAddr) : addresses (addrs.flatMap addrBytes) = addrs := by
  induction addrs with
  | nil => rfl
  | cons a addrs ih =>
      have back : BitVec.ofNat 32 (2 ^ 24 * (BitVec.ofNat 8 (a.toNat / 2 ^ 24)).toNat +
          2 ^ 16 * (BitVec.ofNat 8 (a.toNat / 2 ^ 16)).toNat +
          2 ^ 8 * (BitVec.ofNat 8 (a.toNat / 2 ^ 8)).toNat +
          (BitVec.ofNat 8 a.toNat).toNat) = a := by
        have lt := a.isLt
        apply BitVec.eq_of_toNat_eq
        simp only [BitVec.toNat_ofNat]
        omega
      simp only [List.flatMap_cons, addrBytes, htonl, List.cons_append, List.nil_append, addresses,
        back]
      exact congrArg _ ih

theorem length_addrBytes (a : InAddr) : (addrBytes a).length = 4 := rfl

theorem length_flatMap_addrBytes (addrs : List InAddr) :
    (addrs.flatMap addrBytes).length = 4 * addrs.length := by
  induction addrs with
  | nil => rfl
  | cons a addrs ih =>
      rw [List.flatMap_cons, List.length_append, ih, List.length_cons, length_addrBytes]
      omega

/-- A write behind what is filled of the list. -/
theorem bcopy_fill {front : List Byte} {k : ℕ} (bytes : List Byte) {n : ℕ} (offset : k = front.length)
    (fits : bytes.length ≤ n) :
    bcopy bytes k (front ++ List.replicate n 0) =
      .ok (front ++ bytes ++ List.replicate (n - bytes.length) 0) := by
  have room : front.length + bytes.length ≤ (front ++ List.replicate n (0 : Byte)).length := by
    rw [List.length_append, List.length_replicate]
    omega
  rw [bcopy, offset, if_pos room, List.take_left, ← List.drop_drop, List.drop_left,
    List.drop_replicate]

/-- The option after some gateways. -/
def built (kind : Letter) (addrs : List InAddr) : RouteOption where
  optlist := [kind.option, 0, 4] ++ addrs.flatMap addrBytes ++
    List.replicate (37 - 4 * addrs.length) 0
  oix := 3 + 4 * addrs.length
  lsrr := addrs.length

section Arguments
variable {α : Type*} {resolve : α → Option InAddr}

theorem gateway_built {kind : Letter} {addrs : List InAddr} {arg : Letter × α} {gw : InAddr}
    (known : resolve arg.2 = some gw) (more : addrs ≠ []) (few : addrs.length < 8) :
    gateway resolve (built kind addrs) arg = .ok (built kind (addrs ++ [gw])) := by
  have count : addrs.length ≠ 0 := mt List.length_eq_zero_iff.mp more
  have offset : 3 + 4 * addrs.length =
      ([kind.option, 0, 4] ++ addrs.flatMap addrBytes).length := by
    rw [List.length_append, length_flatMap_addrBytes]
    simp only [List.length_cons, List.length_nil]
  have written := bcopy_fill (n := 37 - 4 * addrs.length) (addrBytes gw) offset
    (by rw [length_addrBytes]; omega)
  have left : 37 - 4 * addrs.length - (addrBytes gw).length =
      37 - 4 * (addrs ++ [gw]).length := by
    rw [length_addrBytes, List.length_append, List.length_singleton]
    omega
  have next : 3 + 4 * addrs.length + 4 = 3 + 4 * (addrs ++ [gw]).length := by
    rw [List.length_append, List.length_singleton]
    omega
  have room : ¬ (maxIpoptlen - ipoptMinoff) / 4 ≤ addrs.length + 1 := by
    rw [maxIpoptlen, ipoptMinoff]
    omega
  rw [left] at written
  simp only [gateway, built, if_neg room, count, if_false, known, written, next]
  simp only [List.flatMap_append, List.flatMap_singleton, List.append_assoc, List.length_append,
    List.length_singleton]

theorem gateway_first {arg : Letter × α} {gw : InAddr} (known : resolve arg.2 = some gw)
    (optlist : List Byte) (oix : ℕ) :
    gateway resolve ⟨optlist, oix, 0⟩ arg = .ok (built arg.1 [gw]) := by
  have room : ¬ (maxIpoptlen - ipoptMinoff) / 4 ≤ 0 + 1 := by decide
  simp only [gateway, if_neg room, if_true, known]
  rfl

/-- The addresses of the gateways that are known. -/
def found (resolve : α → Option InAddr) (args : List (Letter × α)) : List InAddr :=
  args.filterMap fun arg => resolve arg.2

theorem found_cons {arg : Letter × α} {args : List (Letter × α)} {gw : InAddr}
    (known : resolve arg.2 = some gw) : found resolve (arg :: args) = gw :: found resolve args := by
  simp [found, known]

theorem length_found_le (resolve : α → Option InAddr) (args : List (Letter × α)) :
    (found resolve args).length ≤ args.length := List.length_filterMap_le ..

/-- More gateways after the first. -/
theorem foldlM_gateway (kind : Letter) (addrs : List InAddr) {args : List (Letter × α)}
    (known : ∀ arg ∈ args, (resolve arg.2).isSome) (more : addrs ≠ []) (few : addrs.length ≤ 8) :
    args.foldlM (gateway resolve) (built kind addrs) =
      if addrs.length + args.length ≤ 8 then
        .ok (built kind (addrs ++ found resolve args))
      else .error .tooMany := by
  induction args generalizing addrs with
  | nil =>
      rw [List.foldlM_nil, List.length_nil, Nat.add_zero, if_pos few, found, List.filterMap_nil,
        List.append_nil]
      rfl
  | cons arg args ih =>
      obtain ⟨gw, address⟩ := Option.isSome_iff_exists.mp (known arg List.mem_cons_self)
      rw [List.foldlM_cons]
      by_cases full : addrs.length < 8
      · have later := ih (addrs ++ [gw])
          (fun a h => known a (List.mem_cons_of_mem arg h)) (by simp)
          (by rw [List.length_append, List.length_singleton]; omega)
        rw [List.length_append, List.length_singleton, Nat.add_assoc, Nat.add_comm 1,
          List.append_assoc, List.singleton_append] at later
        rw [gateway_built address more full, List.length_cons, found_cons address]
        exact later
      · have none : (maxIpoptlen - ipoptMinoff) / 4 ≤ addrs.length + 1 := by
          rw [maxIpoptlen, ipoptMinoff]
          omega
        have exits : gateway resolve (built kind addrs) arg = .error .tooMany := if_pos none
        rw [exits, List.length_cons, if_neg (by omega)]
        rfl

theorem finish_built (sinAddr : InAddr) (kind : Letter) {addrs : List InAddr} (more : addrs ≠ [])
    (few : addrs.length ≤ 8) : ∃ optlist, finish sinAddr (built kind addrs) = .ok (some optlist) ∧
      optlist.length = 4 * addrs.length + 8 ∧
      readRoute optlist = some (kind.option, addrs ++ [sinAddr]) := by
  have count : 0 < addrs.length := List.length_pos_iff.mpr more
  obtain ⟨length, value⟩ : ∃ length : Byte, length = .ofNat 8 (ipoptMinoff - 1 +
      (addrs.length + 1) * 4) := ⟨_, rfl⟩
  have toNat : length.toNat = 4 * addrs.length + 7 := by
    rw [value, BitVec.toNat_ofNat, ipoptMinoff]
    omega
  have offset : 3 + 4 * addrs.length =
      ([kind.option, length, 4] ++ addrs.flatMap addrBytes).length := by
    rw [List.length_append, length_flatMap_addrBytes]
    simp only [List.length_cons, List.length_nil]
  have written := bcopy_fill (n := 37 - 4 * addrs.length) (addrBytes sinAddr) offset
    (by rw [length_addrBytes]; omega)
  have zeros : List.replicate (37 - 4 * addrs.length - (addrBytes sinAddr).length) (0 : Byte) =
      0 :: List.replicate (32 - 4 * addrs.length) 0 := by
    rw [length_addrBytes, ← List.replicate_succ]
    congr 1
    omega
  have filled : [kind.option, length, 4] ++ addrs.flatMap addrBytes ++ addrBytes sinAddr =
      [kind.option, length, 4] ++ (addrs ++ [sinAddr]).flatMap addrBytes := by
    rw [List.flatMap_append, List.flatMap_singleton, List.append_assoc]
  have padded : pad (3 + 4 * addrs.length + 4) = ([kind.option, length, 4] ++
      (addrs ++ [sinAddr]).flatMap addrBytes ++ [0]).length := by
    rw [pad, List.length_append, List.length_append, length_flatMap_addrBytes, List.length_append]
    simp only [List.length_cons, List.length_nil]
    omega
  refine ⟨[kind.option, length, 4] ++ (addrs ++ [sinAddr]).flatMap addrBytes ++ [0], ?_, ?_, ?_⟩
  · rw [zeros, filled, ← List.singleton_append (l := List.replicate _ _), ← List.append_assoc] at written
    have set : ([kind.option, 0, 4] ++ addrs.flatMap addrBytes ++
        List.replicate (37 - 4 * addrs.length) 0).set 1 length =
          [kind.option, length, 4] ++ addrs.flatMap addrBytes ++
            List.replicate (37 - 4 * addrs.length) 0 := rfl
    simp only [finish, built, if_pos count, ← value, set, written, padded, List.take_left]
  · rw [← padded, pad]
    omega
  · have body : ((addrs ++ [sinAddr]).flatMap addrBytes).length = length.toNat - 3 := by
      rw [length_flatMap_addrBytes, List.length_append, toNat, List.length_singleton]
      omega
    have whole : 3 ≤ length.toNat ∧
        length.toNat - 3 ≤ ((addrs ++ [sinAddr]).flatMap addrBytes ++ [0]).length := by
      refine ⟨by omega, ?_⟩
      rw [List.length_append, body]
      exact Nat.le_add_right _ _
    simp only [List.cons_append, List.nil_append, readRoute, true_and, if_pos whole]
    rw [← body, List.take_left, addresses_flatMap]

/-- The option has room for eight gateways. With more the program exits. Otherwise a host that reads
the option finds the kind of the first argument, the gateways in their order and the destination. -/
theorem routeOption_gateways (sinAddr : InAddr) {args : List (Letter × α)} {kind : Letter}
    (first : args.head?.map Prod.fst = some kind)
    (known : ∀ arg ∈ args, (resolve arg.2).isSome) :
    if args.length ≤ 8 then
      ∃ optlist, routeOption resolve sinAddr args = .ok (some optlist) ∧
        optlist.length ≤ maxIpoptlen ∧ 4 ∣ optlist.length ∧
        readRoute optlist =
          some (kind.option, found resolve args ++ [sinAddr])
    else routeOption resolve sinAddr args = .error .tooMany := by
  cases args with
  | nil => cases first
  | cons arg args =>
      obtain rfl : arg.1 = kind := by simpa using first
      obtain ⟨gw, address⟩ := Option.isSome_iff_exists.mp (known arg List.mem_cons_self)
      have one : [gw].length ≤ 8 := by
        rw [List.length_singleton]
        decide
      have later := foldlM_gateway arg.1 [gw] (fun a h => known a (List.mem_cons_of_mem arg h))
        (by simp) one
      rw [List.length_singleton, Nat.add_comm] at later
      have run : (arg :: args).foldlM (gateway resolve) ⟨List.replicate maxIpoptlen 0, 0, 0⟩ =
          args.foldlM (gateway resolve) (built arg.1 [gw]) := by
        rw [List.foldlM_cons, gateway_first address]
        rfl
      rw [List.length_cons, routeOption, run, later]
      split
      · rename_i few
        have fewer := length_found_le resolve args
        have few' : (gw :: found resolve args).length ≤ 8 := by
          rw [List.length_cons]
          omega
        obtain ⟨optlist, done, length, read⟩ := finish_built sinAddr arg.1 (by simp) few'
        refine ⟨optlist, done, ?_, ?_, ?_⟩
        · rw [length, maxIpoptlen]
          omega
        · rw [length]
          omega
        · rw [read, found_cons address]
      · rfl

theorem routeOption_two :
    if [(Letter.strict, 1), (Letter.loose, 2)].length ≤ 8 then
      ∃ optlist, routeOption (fun n : ℕ => some (.ofNat 32 n)) 3 [(.strict, 1), (.loose, 2)] =
          .ok (some optlist) ∧
        optlist.length ≤ maxIpoptlen ∧ 4 ∣ optlist.length ∧
        readRoute optlist = some (Letter.strict.option, [1, 2, 3])
    else routeOption (fun n : ℕ => some (.ofNat 32 n)) 3 [(.strict, 1), (.loose, 2)] =
      .error .tooMany :=
  routeOption_gateways 3 rfl (by simp)

end Arguments

end SamplePrograms.Traceroute
