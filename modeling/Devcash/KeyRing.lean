import Devcash.Address
import Devcash.Lib.Endian
import Devcash.Lib.OrdMap

/-! The OpenSSL operations the node calls, its key directory and its context. -/
namespace Devcash

/-- Hashing and ECDSA. `setPublicKey` is `EC_KEY_set_public_key` on the curve of the
address; `signBinary` copies the DER bytes into an array of one of two sizes. -/
structure Ossl where
  EcKey : Type
  devcashHash : Bytes → Hash
  verifyByteSig : EcKey → Hash → Signature → Bool
  signBinary : EcKey → Hash → Result Signature
  setPublicKey : Address → Result EcKey
  signBinary_size : ∀ {k h s}, signBinary k h = .ok s → s.IsWallet ∨ s.IsNode

namespace Ossl
variable (o : Ossl)

def loadPublicKey (publicKey : Address) : Result o.EcKey :=
  if publicKey.isWalletAddress then o.setPublicKey publicKey
  else if publicKey.isNodeAddress then o.setPublicKey publicKey
  else .error (.runtime "Invalid public key!")

/-- The characters `Genesis`. -/
def genesis : Bytes := [71, 101, 110, 101, 115, 105, 115]

def genesisHash : Hash := o.devcashHash genesis

end Ossl

structure KeyRing (o : Ossl) where
  keyMap : OrdMap Address o.EcKey
  nodeList : List Address

namespace KeyRing
variable {o : Ossl} (keys : KeyRing o)

/-- Without a stored private key the public key is loaded. -/
def getKey (addr : Address) : Result o.EcKey :=
  match keys.keyMap.find? addr with
  | some key => .ok key
  | none => o.loadPublicKey addr

theorem getKey_of_find? {keys : KeyRing o} {addr : Address} {key : o.EcKey}
    (h : keys.keyMap.find? addr = some key) : keys.getKey addr = .ok key := by
  simp only [getKey, h]

def isINN (_ : KeyRing o) (addr : Address) : Bool := addr.isNodeAddress

def getNodeAddr (index : Nat) : Result Address :=
  match keys.nodeList[index]? with
  | some addr => .ok addr
  | none => .error .outOfRange

def getNodeKey (index : Nat) : Result o.EcKey := do
  let nodeAddr ← keys.getNodeAddr index
  match keys.keyMap.find? nodeAddr with
  | some key => .ok key
  | none => .error (.thrown ("Node[" ++ toString index ++ "] key is missing!"))

end KeyRing

/-- A wallet address filled with one byte. -/
def Address.sample (n : Byte) : Address := ⟨33 :: List.replicate 33 n⟩

def Address.sampleNode (n : Byte) : Address := ⟨49 :: List.replicate 49 n⟩

namespace Ossl

/-- The bytes as digits of a number, without regard to length. -/
def toyHash (msg : Bytes) : Hash :=
  ⟨Endian.leBytes 32 (msg.foldl (fun n b => n * 257 + b.toNat + 1) 0), Endian.length_leBytes _ _⟩

/-- The hash and the address, cut to one of the two sizes. -/
def toySignature (key : Address) (h : Hash) : Signature :=
  let raw := h.1 ++ key.canonical ++ List.replicate 105 0
  if key.isWalletAddress then ⟨73 :: raw.take 73⟩ else ⟨105 :: raw.take 105⟩

/-- A scheme without secrets in which the model can be run. -/
def toy : Ossl where
  EcKey := Address
  devcashHash := toyHash
  verifyByteSig key h sig := decide (toySignature key h = sig)
  signBinary key h := .ok (toySignature key h)
  setPublicKey addr := .ok addr
  signBinary_size := by
    intro key h s hs
    cases hs
    rw [toySignature]
    split_ifs
    · exact Or.inl ⟨by simp [h.2, kWalletSigBufSize, kWalletSigSize]; omega, rfl⟩
    · exact Or.inr ⟨by simp [h.2, kNodeSigBufSize, kNodeSigSize]; omega, rfl⟩

theorem isWallet_toySignature {key : Address} (hkey : key.isWalletAddress = true) (h : Hash) :
    (toySignature key h).IsWallet := by
  rw [toySignature, if_pos hkey]
  refine ⟨?_, rfl⟩
  simp only [List.length_cons, List.length_take, List.length_append, List.length_replicate, h.2,
    kWalletSigBufSize, kWalletSigSize]
  omega

end Ossl

/-- Three nodes that hold each other's keys. -/
def KeyRing.toy : KeyRing Ossl.toy where
  keyMap := ((OrdMap.empty.insert (Address.sampleNode 1) (Address.sampleNode 1)).insert
    (Address.sampleNode 2) (Address.sampleNode 2)).insert
    (Address.sampleNode 3) (Address.sampleNode 3)
  nodeList := [Address.sampleNode 1, Address.sampleNode 2, Address.sampleNode 3]

structure DevcashContext where
  currentNode : Nat
  currentShard : Nat
  peerCount : Nat
  appMode : AppMode
  deriving Repr

namespace DevcashContext

def getPeerCount (c : DevcashContext) : Nat := c.peerCount

def getCurrentNode (c : DevcashContext) : Nat := u32 (c.currentNode + c.currentShard * c.peerCount)

/-- One of three nodes of the first shard. -/
def sample (node : Nat) : DevcashContext := ⟨node, 0, 3, .t1⟩

end DevcashContext
end Devcash
