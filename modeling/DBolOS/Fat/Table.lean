import DBolOS.Fat.Volume

/-!
# Cluster chains in the FAT

The functions of `fat.c` that search, extend, walk and free chains in `fat_table`.  A loop that follows links carries
a fuel of one more than the number of table entries: a walk that uses it up has entered a cycle and never ends.
-/

namespace DBolOS.Fat

namespace Volume

def walkFuel (v : Volume) : Nat := v.fatTable.length + 1

/-- The index of the first free entry, `none` for the source's `-1`. -/
def fatFindFree (v : Volume) : Option Nat := v.fatTable.findIdx? (· == freeCluster)

/-- The loop of `fat_update_chain`: the last entry of the chain, `some none` when the chain leaves the FATs. -/
def lastOfChain (v : Volume) : Nat → Nat → Option (Option Nat)
  | 0, _ => none
  | n + 1, beforeLast => do
    let x ← v.fatTable[beforeLast]?
    if isEndOfClusterChain x || x == freeCluster then some (some beforeLast)
    else if v.fs.numFats * v.fs.sectorsPerFat * v.fs.bytesPerSector / 2 ≤ x.toNat then some none
    else lastOfChain v n x.toNat

/-- Hang the entry `newFatIndex` behind the chain from `startingFat` and zero its cluster. -/
def fatUpdateChain (v : Volume) (startingFat newFatIndex : Nat) : Option Volume := do
  match ← v.lastOfChain v.walkFuel startingFat with
  | none => some v
  | some beforeLast =>
    let v ← v.storeFat beforeLast (UInt16.ofNat newFatIndex)
    let v ← v.writeFatSector beforeLast
    let v ← v.storeFat newFatIndex clusterChainEnd
    let v ← v.writeFatSector newFatIndex
    v.fatWriteDataCluster newFatIndex v.zeroBuffer

/-- The loop of `fat_free_chain`: an entry is read, freed and written back before its link is followed. -/
def freeChainLoop : Nat → Volume → Nat → Option Volume
  | 0, _, _ => none
  | n + 1, v, currentIndex => do
    let x ← v.fatTable[currentIndex]?
    let v ← v.storeFat currentIndex freeCluster
    let v ← v.writeFatSector currentIndex
    if isEndOfClusterChain x || x == freeCluster then some v else freeChainLoop n v x.toNat

def fatFreeChain (v : Volume) (fatIndex : Nat) : Option Volume := freeChainLoop v.walkFuel v fatIndex

/-- The `i`-th cluster of a chain, `some none` for the source's `-1`. -/
def getIthCluster (v : Volume) : Nat → Nat → Option (Option Nat)
  | startingCluster, 0 => some (some startingCluster)
  | startingCluster, i + 1 => do
    let x ← v.fatTable[startingCluster]?
    if isEndOfClusterChain x || x == freeCluster then some none else getIthCluster v x.toNat i

/-- The loop of `fat_get_cluster_amount`. -/
def clusterAmountFrom (v : Volume) : Nat → Nat → Option Nat
  | 0, _ => none
  | n + 1, cluster => do
    let x ← v.fatTable[cluster]?
    if isEndOfClusterChain x then some 1
    else if x == freeCluster then some 0
    else (· + 1) <$> clusterAmountFrom v n x.toNat

def fatGetClusterAmount (v : Volume) (entry : DirEntry) : Option Nat :=
  v.clusterAmountFrom v.walkFuel entry.startCluster.toNat

/-- Extend the chain of `entry` by `amount` clusters; `false` when the free entries run out. -/
def fatAllocateSpace : Nat → Volume → DirEntry → Option (Bool × Volume)
  | 0, v, _ => some (true, v)
  | amount + 1, v, entry =>
    match v.fatFindFree with
    | none => some (false, v)
    | some index => do
      let v ← v.fatUpdateChain entry.startCluster.toNat index
      fatAllocateSpace amount v entry

end Volume

end DBolOS.Fat
