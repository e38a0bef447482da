import OpcodeRecovery.Ledger
import OpcodeRecovery.Token

/-!
Method keys. A virtualized method is named by the metadata token it had in the program and
by the seed its bytes are masked with. Keys are ordered by token, then by seed.
-/

namespace OpcodeRecovery

/-- The name of a virtualized method: its token and its seed. -/
structure MethodKey where
  token : Token
  seed : UInt32
  deriving DecidableEq, Repr

namespace MethodKey

/-- The order of keys as a number: the token above the seed. -/
instance : Ranked MethodKey where
  rank k := k.token.value.toNat * 0x100000000 + k.seed.toNat
  rank_injective a b h := by
    obtain ⟨⟨ta⟩, sa⟩ := a
    obtain ⟨⟨tb⟩, sb⟩ := b
    have hsa := sa.toNat_lt
    have hsb := sb.toNat_lt
    simp only at h
    have ht : ta = tb := UInt32.toNat_inj.1 (by omega)
    have hs : sa = sb := UInt32.toNat_inj.1 (by omega)
    rw [ht, hs]

/-- A key as token and seed in hexadecimal. -/
def text (k : MethodKey) : String :=
  k.token.text ++ "#" ++ Hex.lower 8 k.seed.toNat

/-- A key with its parts named. -/
def inspect (k : MethodKey) : String :=
  "MethodKey(" ++ k.token.text ++ ", seed: 0x" ++ Hex.lower 8 k.seed.toNat ++ ")"

/-- Keys in ascending order; equal keys stay. -/
def sort (ks : List MethodKey) : List MethodKey :=
  ks.mergeSort fun a b => rank a ≤ rank b

end MethodKey

end OpcodeRecovery
