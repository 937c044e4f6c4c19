import Roots.Bytes

/-!
# Roots.Address

Mesh addresses and routed subnets, from `core/src/address.rs`.

An address is a bit shuffle of the inverted key: the number of leading ones, then
the bits after the zero that ends them. It keeps 112 of those bits and a subnet
keeps 48, so both maps are **lossy**, and `xkey`, the transform under which lookups
and notifies meet, is as lossy as the subnet is.
-/

namespace Roots

def nodePrefix : UInt8 := 0x02
def subnetBit : UInt8 := 0x01

/-- `Address`. -/
abbrev Address := List.Vector UInt8 16

/-- `Subnet`. -/
abbrev Subnet := List.Vector UInt8 8

/-! ## Bits, most significant first -/

/-- The bits of a byte string. -/
def bitsOf (b : Bytes) : List Bool :=
  b.flatMap fun x => (List.range 8).map fun j => x &&& (0x80 >>> UInt8.ofNat j) ≠ 0

/-- Byte `i` of a string of bits; bits past the end are zero. -/
def byteAt (bits : List Bool) (i : Nat) : UInt8 :=
  (List.range 8).foldl
    (fun b j => if bits.getD (8 * i + j) false then b ||| (0x80 >>> UInt8.ofNat j) else b) 0

/-- The first `n` bytes of a string of bits. -/
def packBits (n : Nat) (bits : List Bool) : List.Vector UInt8 n :=
  List.Vector.ofFn fun i : Fin n => byteAt bits i

/-! ## Keys to addresses -/

/-- The inverted key's leading ones, counted in a saturating `u8`. -/
def leadingOnes (inv : List Bool) : UInt8 := UInt8.ofNat (min (inv.takeWhile id).length 255)

/-- The payload of an address: the bits after the zero that ends the leading ones,
in whole bytes. An incomplete last byte is dropped, and what is missing is zero. -/
def addrPayload (inv : List Bool) : List.Vector UInt8 14 :=
  let rest := (inv.dropWhile id).drop 1
  packBits 14 (rest.take (8 * (rest.length / 8)))

/-- `addr_for_key`. -/
def addrForKey (publicKey : Key) : Address :=
  let inv := (bitsOf publicKey.toList).map not
  nodePrefix ::ᵥ leadingOnes inv ::ᵥ addrPayload inv

/-- `subnet_for_key`: the first half of the address with the subnet bit set. -/
def subnetForKey (publicKey : Key) : Subnet :=
  let addr := addrForKey publicKey
  ((addr.head ||| subnetBit) ::ᵥ addr.tail).take 8

/-- The test vector of the source. -/
private def vectorKey : Key :=
  ⟨[189, 186, 207, 216, 34, 64, 222, 61, 205, 18, 57, 36, 203, 181, 82, 86, 251, 141, 171, 8,
    170, 152, 227, 5, 82, 138, 184, 79, 65, 158, 110, 251], rfl⟩

example : (addrForKey vectorKey).toList =
    [2, 0, 132, 138, 96, 79, 187, 126, 67, 132, 101, 219, 141, 182, 104, 149] := by
  decide +kernel

example : (subnetForKey vectorKey).toList = [3, 0, 132, 138, 96, 79, 187, 126] := by
  decide +kernel

/-! ## Addresses to partial keys -/

/-- `key_for_addr`: the ones, the zero after them and the payload bits, inverted.
Bits the address does not hold come back as one. -/
def keyForAddr (addr : Address) : Key :=
  let ones := (addr.get 1).toNat
  let bits := List.replicate ones true ++ false :: bitsOf (addr.toList.drop 2)
  (packBits keyLen bits).map (~~~ ·)

/-- `key_for_subnet`. -/
def keyForSubnet (snet : Subnet) : Key :=
  keyForAddr ⟨snet.toList ++ List.replicate 8 0, by simp⟩

/-- The leading ones an address counts. -/
def Address.ones (addr : Address) : Nat := (addr.get 1).toNat

/-- The address `key_for_subnet` reads: the subnet, and zeros after it. -/
def subnetAddr (snet : Subnet) : Address := ⟨snet.toList ++ List.replicate 8 0, by simp⟩

/-- `Address::is_subnet`. -/
def Address.isSubnet (addr : Address) : Bool := addr.head == nodePrefix ||| subnetBit

/-- The `/64` an address lies in. -/
def Address.subnet (addr : Address) : Subnet := addr.take 8

/-- `lookup_key_for_addr`. -/
def lookupKeyForAddr (addr : Address) : Key :=
  if Address.isSubnet addr then keyForSubnet (Address.subnet addr) else keyForAddr addr

/-- `xkey` of `src/bloom.rs`: the DHT transform. -/
def xkey (key : Key) : Key := keyForSubnet (subnetForKey key)

/-- The match of `key_for_addr` in `src/driver.rs`: the key has this address, or the
address is a subnet's and the key routes that subnet. -/
def ownsAddr (key : Key) (addr : Address) : Bool :=
  addrForKey key = addr ∨ (Address.isSubnet addr ∧ subnetForKey key = Address.subnet addr)

end Roots
