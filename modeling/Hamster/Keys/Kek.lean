import Hamster.CodeLib.Hash
import Hamster.Meta.Records
import Hamster.Stream.Frame

/-!
# Master keys

`internal/keys/keys.go`: the keys that objects are sealed with (DEKs), and the
master keys (KEKs) that these are wrapped under.
-/

namespace Hamster.Keys

open CodeLib Meta

def kekLen : Nat := 32

def wrapNonceLen : Nat := 12

def wrappedLen : Nat := 60

def fingerprintLabel : Bytes :=
  [104, 97, 109, 115, 116, 101, 114, 45, 107, 101, 107, 45, 102, 105, 110, 103, 101, 114, 112, 114,
    105, 110, 116, 45, 118, 49]

structure DEK where
  bytes : Bytes
  length_eq : bytes.length = Stream.dekLen
deriving DecidableEq

/-- A master key.  The zero `KEK` has no key. -/
structure KEK where
  raw : Option Bytes
  length_eq : ∀ key ∈ raw, key.length = kekLen
deriving DecidableEq

namespace KEK

def load (key : Bytes) (h : key.length = kekLen) : KEK :=
  ⟨some key, fun _ hkey => Option.mem_some.mp hkey ▸ h⟩

def loaded (k : KEK) : Bool := k.raw.isSome

def fingerprint (k : KEK) : UInt64 :=
  match k.raw with
  | none => 0
  | some key => UInt64.ofNat (beNat ((hmacSHA256 key fingerprintLabel).take 8))

variable [Stream.Gcm]

/-- `none` is an error: no key is loaded, or the nonce has the wrong length. -/
def wrap (k : KEK) (dek : DEK) (nonce : Bytes) : Option Bytes :=
  match k.raw with
  | none => none
  | some key =>
    if nonce.length ≠ wrapNonceLen then none
    else some (nonce ++ Stream.Gcm.aeadSeal key nonce dek.bytes)

def unwrap (k : KEK) (wrapped : Bytes) : Option DEK :=
  match k.raw with
  | none => none
  | some key =>
    if wrapped.length ≠ wrappedLen then none
    else
      match Stream.Gcm.aeadOpen key (wrapped.take wrapNonceLen) (wrapped.drop wrapNonceLen) with
      | none => none
      | some plain => if h : plain.length = Stream.dekLen then some ⟨plain, h⟩ else none

end KEK

end Hamster.Keys
