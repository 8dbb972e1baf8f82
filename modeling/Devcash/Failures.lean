import Devcash.Lib.Throws
import Devcash.RawSections

/-! What the accessors, the decoders and the validations can throw: exceptions and reads
outside a vector, and never a loop without end. -/
namespace Devcash
open Endian Reader InputBuffer

/-- An exception, or a read outside a vector. -/
def Error.isPlain (e : Error) : Bool := e.isException || e == .badAccess

abbrev Plain (e : Error) : Prop := e.isPlain = true

/-- What `std::exception` catches. -/
abbrev Caught (e : Error) : Prop := e.isException = true

theorem Caught.plain {e : Error} (h : Caught e) : Plain e := by
  simp [Plain, Error.isPlain, h]

theorem caught_signature (vec : Bytes) : (Signature.ofBytes vec).Throws Caught :=
  .ite (.ok _) (.ite (.ite (.ok _) (.error rfl)) (.ite (.ok _) (.ite (.ite (.ok _) (.error rfl))
    (.error rfl))))

namespace InputBuffer

end InputBuffer

namespace Transfer

end Transfer

namespace Tier2Transaction
variable {o : Ossl} {keys : KeyRing o}

end Tier2Transaction

/-- Loading a public key throws nothing but exceptions. -/
def Ossl.LoadsPlainly (o : Ossl) : Prop :=
  ∀ a, (o.setPublicKey a).Throws (fun e => e.isException = true)

namespace KeyRing
variable {o : Ossl}

theorem caught_getKey (hload : o.LoadsPlainly) (keys : KeyRing o) (a : Address) :
    (keys.getKey a).Throws Caught := by
  rw [getKey]
  split
  · exact .ok _
  · exact .ite (hload a) (.ite (hload a) (.error rfl))

end KeyRing

section
variable {o : Ossl} (hload : o.LoadsPlainly) (keys : KeyRing o)
include hload

end

namespace Summary

end Summary

section
variable {fields : Transfer → Result (Address × Nat × Int)} {spend : Spend}
  (hfields : ∀ t, (fields t).Throws Plain) (hspend : ∀ b a c x, (spend b a c x).Throws Plain)
include hfields hspend

end

end Devcash
