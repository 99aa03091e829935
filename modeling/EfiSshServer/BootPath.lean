import EfiSshServer.Lib.Cells
import EfiSshServer.Launch
import EfiSshServer.Entropy

/-!
# The device path of a Shell file

`TryFile` asks the firmware to load a file by a device path: the nodes of the boot device,
a file-path node behind them, and the node that ends a path.  It puts these together in
allocated memory, with a length it has walked for.  In `Launch.lean` the question is just
the path of the file; this module has its bytes.

## Strategy

A device path in memory is well formed by construction: a `DevNode` carries the bounds on
its own length, and `onDisk` puts an end node and then anything behind the nodes.

* `devPathLen_run` is the walk.  The induction is on the nodes, and the offset of the walk
  is the length of those before.
* Each part of the buffer is written where the last one ended, so that by
  `written_append` the whole is one list.  Its length is what was allocated.
* `parsePath` reads a path node by node, as the firmware does.  It knows nothing of how
  the path came about, and `parsePath_nodes` says that it takes any path apart.
-/

namespace EfiSshServer

open StateProgram Cells

/-! ## Device paths -/

def mediaDevicePath : UInt8 := 0x04
def mediaFilepathDp : UInt8 := 0x04
def endDevicePathType : UInt8 := 0x7f
def endEntireDevicePathSubtype : UInt8 := 0xff

/-- `Length` of a node. -/
def le16 (n : ℕ) : Bytes := [UInt8.ofNat n, UInt8.ofNat (n >>> 8)]

/-- A node that does not end the path.  A node that ends an instance of it is one. -/
structure DevNode where
  type : UInt8
  subType : UInt8
  data : Bytes
  fits : 4 + data.length < 65536
  notEnd : ¬ (type = endDevicePathType ∧ subType = endEntireDevicePathSubtype)
  deriving DecidableEq

namespace DevNode

def size (n : DevNode) : ℕ := 4 + n.data.length

def bytes (n : DevNode) : Bytes := n.type :: n.subType :: (le16 n.size ++ n.data)

@[simp] theorem length_bytes (n : DevNode) : n.bytes.length = n.size := by
  simp only [bytes, le16, List.length_cons, List.length_append, List.length_nil, size]
  omega

end DevNode

def endNode : Bytes := endDevicePathType :: endEntireDevicePathSubtype :: le16 4

/-- A device path with whatever lies behind it in memory. -/
def onDisk (nodes : List DevNode) (behind : Bytes) : Bytes :=
  nodes.flatMap DevNode.bytes ++ (endNode ++ behind)

/-- The bytes of `CHAR16`s. -/
def bytes16 (units : List UInt16) : Bytes :=
  units.flatMap fun u : UInt16 => [u.toUInt8, (u >>> 8).toUInt8]

/-! ## Reading a path node by node -/

theorem le16_size_lt (lo hi : UInt8) (rest : Bytes) :
    4 + (rest.take (lo.toNat + 256 * hi.toNat - 4)).length < 65536 ∨
      lo.toNat + 256 * hi.toNat < 4 := by
  have hlo := lo.toNat_lt
  have hhi := hi.toNat_lt
  rw [List.length_take]
  omega

/-- The nodes up to the end node, and what is left behind it. -/
def parseNodes : (rounds : ℕ) → Bytes → Option (List DevNode × Bytes)
  | rounds + 1, type :: subType :: lo :: hi :: rest =>
      let size := lo.toNat + 256 * hi.toNat
      if hend : type = endDevicePathType ∧ subType = endEntireDevicePathSubtype then
        if size = 4 then some ([], rest) else none
      else if hsize : 4 ≤ size ∧ size - 4 ≤ rest.length then
        let node : DevNode := ⟨type, subType, rest.take (size - 4),
          (le16_size_lt lo hi rest).resolve_right (Nat.not_lt.mpr hsize.1), hend⟩
        (parseNodes rounds (rest.drop (size - 4))).map fun parsed => (node :: parsed.1, parsed.2)
      else none
  | _, _ => none

/-- There are rounds enough for any path. -/
def parsePath (path : Bytes) : Option (List DevNode × Bytes) := parseNodes path.length path

/-! ## The functions of the source -/

inductive PathFault where
  | outside
  /-- The call was reported by `InsaneLen`, which does not return. -/
  | insaneLen
  /-- The walk has had more rounds than there are bytes. -/
  | running
  deriving DecidableEq

/-- The state is the block at `dp`. -/
abbrev PathM := Program PathFault Bytes

/-- The loop of `DevPathLen`, `total` bytes into the path. -/
def devPathLenFrom (dev : Bytes) : (rounds total : ℕ) → PathM ℕ
  | 0, _ => throw .running
  | rounds + 1, total => do
      let lo ← fetch .outside dev (total + 2)
      let hi ← fetch .outside dev (total + 3)
      let len := lo.toNat ||| (hi.toNat <<< 8)
      if len < 4 then return total
      else
        let type ← fetch .outside dev total
        let subType ← fetch .outside dev (total + 1)
        if type = endDevicePathType ∧ subType = endEntireDevicePathSubtype then return total
        else devPathLenFrom dev rounds (total + len)

def devPathLen (dev : Bytes) : PathM ℕ := devPathLenFrom dev dev.length 0

/-- `StrLen16` on a string with its NUL. -/
def strLen16 : List UInt16 → PathM ℕ
  | [] => throw .outside
  | c :: rest => do
      if c ≠ 0 then
        let n ← strLen16 rest
        return n + 1
      else return 0

/-- `RtAllocZero`; `false` when it returns `NULL`. -/
def rtAllocZero (granted : ℕ → Bool) (n : ℕ) : PathM Bool := do
  if !granted n then return false
  else if n > rtInsaneLen then throw .insaneLen
  else
    set (List.replicate n (0 : UInt8))
    return true

/-- `memcpy` of the first `n` bytes of `src` to the offset `d` of the block. -/
def copyToBlock (d : ℕ) (src : Bytes) (n : ℕ) : PathM Unit := do
  if n > rtInsaneLen then throw .insaneLen
  else copyFrom .outside src n 0 d

/-- The header of the node at `node`, field by field. -/
def storeHeader (node : ℕ) (type subType len0 len1 : UInt8) : PathM Unit := do
  store .outside node type
  store .outside (node + 1) subType
  store .outside (node + 2) len0
  store .outside (node + 3) len1

/-- How `TryFile` gets to `LoadImage`: with an allocated block of this size, or not. -/
inductive Boot where
  | failed (status : EfiStatus)
  | load (allocated : ℕ) (dp : Bytes)
  deriving DecidableEq

/-- The stores of `TryFile` to the block. -/
def fillPath (dev : Bytes) (path : List UInt16) (devLen pathChars nodeLen : ℕ) : PathM Unit := do
  copyToBlock 0 dev devLen
  storeHeader devLen mediaDevicePath mediaFilepathDp
    (UInt8.ofNat nodeLen) (UInt8.ofNat (nodeLen >>> 8))
  copyToBlock (devLen + 4) (bytes16 (path ++ [0])) (pathChars * 2)
  storeHeader (devLen + nodeLen) endDevicePathType endEntireDevicePathSubtype 4 0

/-- `TryFile` up to `LoadImage`.  `device` is the memory at the path of the boot device, if
there is one. -/
def bootPath (granted : ℕ → Bool) (device : Option Bytes) (path : List UInt16) : PathM Boot := do
  match device with
  | none => return .failed efiNotFound
  | some dev =>
      if (← fetch .outside (path ++ [0]) 0) = 0 then return .failed efiNotFound
      else
        let devLen ← devPathLen dev
        let pathChars := (← strLen16 (path ++ [0])) + 1
        let nodeLen := 4 + pathChars * 2
        let size := devLen + nodeLen + 4
        if !(← rtAllocZero granted size) then return .failed efiOutOfResources
        else
          fillPath dev path devLen pathChars nodeLen
          return .load size (← get)

/-! ## The walk -/

section Walk

variable {nodes : List DevNode} {behind block : Bytes}

/-- What `DevPathLen` reads back of a length. -/
theorem le16_read {n : ℕ} (h : n < 65536) :
    (UInt8.ofNat n).toNat ||| ((UInt8.ofNat (n >>> 8)).toNat <<< 8) = n := by
  rw [UInt8.toNat_ofNat', UInt8.toNat_ofNat', Nat.shiftRight_eq_div_pow, Nat.or_comm,
    ← Nat.shiftLeft_add_eq_or_of_lt (Nat.mod_lt n (by decide)), Nat.shiftLeft_eq]
  omega

theorem fetch_run {e : PathFault} {m : Bytes} {i : ℕ} {v : UInt8} (h : m[i]? = some v) :
    (fetch e m i : PathM UInt8) block = .ok (v, block) := by
  rw [fetch, h]
  rfl

/-- The header of a node, in the middle of the memory. -/
theorem getElem?_header {front : Bytes} {total : ℕ} (rest : Bytes) (a b c d : UInt8)
    (h : front.length = total) :
    (front ++ a :: b :: c :: d :: rest)[total]? = some a ∧
      (front ++ a :: b :: c :: d :: rest)[total + 1]? = some b ∧
      (front ++ a :: b :: c :: d :: rest)[total + 2]? = some c ∧
      (front ++ a :: b :: c :: d :: rest)[total + 3]? = some d := by
  subst h
  refine ⟨?_, ?_, ?_, ?_⟩
  all_goals
    rw [List.getElem?_append_right (by omega)]
    simp

/-- One round of the walk, at a header. -/
theorem devPathLenFrom_header {front rest : Bytes} {total : ℕ} (rounds len : ℕ)
    (type subType : UInt8) (hlen : len < 65536) (hlong : 4 ≤ len) (h : front.length = total) :
    devPathLenFrom (front ++ type :: subType :: (le16 len ++ rest)) (rounds + 1) total block =
      if type = endDevicePathType ∧ subType = endEntireDevicePathSubtype then .ok (total, block)
      else devPathLenFrom (front ++ type :: subType :: (le16 len ++ rest)) rounds (total + len)
        block := by
  obtain ⟨htype, hsub, hlo, hhi⟩ := getElem?_header rest type subType
    (UInt8.ofNat len) (UInt8.ofNat (len >>> 8)) h
  have hmem : type :: subType :: (le16 len ++ rest) =
      type :: subType :: UInt8.ofNat len :: UInt8.ofNat (len >>> 8) :: rest := rfl
  rw [hmem, devPathLenFrom, bind_ok (fetch_run hlo), bind_ok (fetch_run hhi)]
  simp only [le16_read hlen, if_neg (Nat.not_lt.mpr hlong)]
  rw [bind_ok (fetch_run htype), bind_ok (fetch_run hsub)]
  split
  · rfl
  · rfl

/-- The length of the nodes before the end. -/
def nodesSize (nodes : List DevNode) : ℕ := (nodes.flatMap DevNode.bytes).length

theorem nodesSize_cons (n : DevNode) (nodes : List DevNode) :
    nodesSize (n :: nodes) = n.size + nodesSize nodes := by
  rw [nodesSize, List.flatMap_cons, List.length_append, DevNode.length_bytes, nodesSize]

theorem onDisk_cons (n : DevNode) (nodes : List DevNode) (behind : Bytes) :
    onDisk (n :: nodes) behind =
      n.type :: n.subType :: (le16 n.size ++ (n.data ++ onDisk nodes behind)) := by
  simp only [onDisk, List.flatMap_cons, DevNode.bytes, List.cons_append, List.append_assoc]

/-- The walk over the nodes that are left, behind those that it has passed. -/
theorem devPathLenFrom_run {front : Bytes} {rounds total : ℕ} (hfront : front.length = total)
    (hrounds : nodes.length < rounds) :
    devPathLenFrom (front ++ onDisk nodes behind) rounds total block =
      .ok (total + nodesSize nodes, block) := by
  induction nodes generalizing front rounds total with
  | nil =>
      obtain ⟨rounds, rfl⟩ : ∃ k, rounds = k + 1 := Nat.exists_eq_add_one.mpr hrounds
      have hend : onDisk [] behind =
          endDevicePathType :: endEntireDevicePathSubtype :: (le16 4 ++ behind) := rfl
      rw [hend, devPathLenFrom_header rounds 4 endDevicePathType endEntireDevicePathSubtype
        (by decide) (Nat.le_refl 4) hfront, if_pos ⟨rfl, rfl⟩]
      rfl
  | cons n nodes ih =>
      rw [List.length_cons] at hrounds
      obtain ⟨rounds, rfl⟩ : ∃ k, rounds = k + 1 := Nat.exists_eq_add_one.mpr (by omega)
      have hpassed : (front ++ n.bytes).length = total + n.size := by
        rw [List.length_append, hfront, DevNode.length_bytes]
      have hmem : front ++ onDisk (n :: nodes) behind =
          (front ++ n.bytes) ++ onDisk nodes behind := by
        simp only [onDisk, List.flatMap_cons, List.append_assoc]
      have hfits : n.size < 65536 := n.fits
      have hsize : 4 ≤ n.size := Nat.le_add_right 4 _
      rw [onDisk_cons, devPathLenFrom_header _ n.size n.type n.subType hfits hsize hfront,
        if_neg n.notEnd, ← onDisk_cons, hmem, ih hpassed (by omega), nodesSize_cons,
        Nat.add_assoc]

theorem length_le_nodesSize (nodes : List DevNode) : nodes.length ≤ nodesSize nodes := by
  induction nodes with
  | nil => exact Nat.le_refl 0
  | cons n nodes ih =>
      rw [nodesSize_cons, List.length_cons, DevNode.size]
      omega

/-- A path has fewer nodes than bytes. -/
theorem length_lt_onDisk (nodes : List DevNode) (behind : Bytes) :
    nodes.length < (onDisk nodes behind).length := by
  have hend : endNode.length = 4 := rfl
  have hnodes := length_le_nodesSize nodes
  rw [nodesSize] at hnodes
  rw [onDisk, List.length_append, List.length_append]
  omega

theorem devPathLen_run (nodes : List DevNode) (behind block : Bytes) :
    devPathLen (onDisk nodes behind) block = .ok (nodesSize nodes, block) := by
  have hrun : devPathLenFrom ([] ++ onDisk nodes behind) (onDisk nodes behind).length 0 block =
      .ok (0 + nodesSize nodes, block) :=
    devPathLenFrom_run rfl (length_lt_onDisk nodes behind)
  rw [Nat.zero_add] at hrun
  exact hrun

theorem strLen16_run {path : List UInt16} (h : 0 ∉ path) :
    strLen16 (path ++ [0]) block = .ok (path.length, block) := by
  induction path with
  | nil => rfl
  | cons c path ih =>
      rw [List.mem_cons, not_or] at h
      rw [List.cons_append, strLen16, if_pos (Ne.symm h.1), bind_ok (ih h.2)]
      rfl

end Walk

/-! ## The buffer -/

theorem length_bytes16 (units : List UInt16) : (bytes16 units).length = units.length * 2 := by
  induction units with
  | nil => rfl
  | cons u units ih =>
      rw [bytes16, List.flatMap_cons, List.length_append, ← bytes16, ih, List.length_cons]
      simp only [List.length_cons, List.length_nil]
      omega

/-- The node for a file: its path with the NUL. -/
def fileNode (path : List UInt16) (h : path.length ≤ 519) : DevNode where
  type := mediaDevicePath
  subType := mediaFilepathDp
  data := bytes16 (path ++ [0])
  fits := by
    rw [length_bytes16, List.length_append, List.length_singleton]
    omega
  notEnd := by decide

theorem fileNode_size {path : List UInt16} (h : path.length ≤ 519) :
    (fileNode path h).size = 4 + (path.length + 1) * 2 := by
  rw [DevNode.size, fileNode, length_bytes16, List.length_append, List.length_singleton]

section Buffer

variable {block xs src : Bytes} {p n : ℕ}

theorem copyToBlock_after (hn : n ≤ rtInsaneLen) (hsrc : n ≤ src.length) (hp : p = xs.length)
    (h : p + n ≤ block.length) :
    copyToBlock p src n (Cells.written block 0 xs) =
      .ok ((), Cells.written block 0 (xs ++ src.take n)) := by
  have hrun : copyFrom PathFault.outside src n 0 p (Cells.written block 0 xs) =
      .ok ((), Cells.written block 0 (xs ++ src.take n)) :=
    copyFrom_after PathFault.outside (by omega) (by omega) h
  rw [copyToBlock, if_neg (Nat.not_lt.mpr hn)]
  exact hrun

/-- Four fields, one after the other. -/
theorem storeHeader_after (a b c e : UInt8) (hp : p = xs.length) (h : p + 4 ≤ block.length) :
    storeHeader p a b c e (Cells.written block 0 xs) =
      .ok ((), Cells.written block 0 (xs ++ [a, b, c, e])) := by
  have hfirst := store_after (m := block) PathFault.outside a
    (show p = 0 + xs.length by omega) (by omega)
  have hsecond := store_after (m := block) PathFault.outside b
    (show p + 1 = 0 + (xs ++ [a]).length by simp; omega) (by omega)
  have hthird := store_after (m := block) PathFault.outside c
    (show p + 2 = 0 + (xs ++ [a] ++ [b]).length by simp; omega) (by omega)
  have hfourth := store_after (m := block) PathFault.outside e
    (show p + 3 = 0 + (xs ++ [a] ++ [b] ++ [c]).length by simp; omega) (by omega)
  rw [storeHeader, bind_ok hfirst, bind_ok hsecond, bind_ok hthird, hfourth]
  simp only [List.append_assoc, List.cons_append, List.nil_append]

end Buffer

section Run

variable {nodes : List DevNode} {behind block : Bytes} {path : List UInt16}

/-- The buffer that `TryFile` puts together. -/
def bootBuffer (nodes : List DevNode) (path : List UInt16) (h : path.length ≤ 519) : Bytes :=
  onDisk (nodes ++ [fileNode path h]) []

/-- What `TryFile` asks to be allocated. -/
def bootSize (nodes : List DevNode) (path : List UInt16) : ℕ :=
  nodesSize nodes + (4 + (path.length + 1) * 2) + 4

theorem bootBuffer_parts (h : path.length ≤ 519) :
    bootBuffer nodes path h =
      nodes.flatMap DevNode.bytes ++
        [mediaDevicePath, mediaFilepathDp, UInt8.ofNat (4 + (path.length + 1) * 2),
          UInt8.ofNat ((4 + (path.length + 1) * 2) >>> 8)] ++
        bytes16 (path ++ [0]) ++ [endDevicePathType, endEntireDevicePathSubtype, 4, 0] := by
  rw [bootBuffer, onDisk, List.flatMap_append, List.flatMap_singleton, DevNode.bytes,
    fileNode_size, le16]
  simp only [fileNode, List.append_nil, List.append_assoc, List.cons_append, List.nil_append]
  rfl

theorem length_bootBuffer (h : path.length ≤ 519) :
    (bootBuffer nodes path h).length = bootSize nodes path := by
  rw [bootBuffer_parts]
  simp only [List.length_append, List.length_cons, List.length_nil, length_bytes16, bootSize,
    nodesSize]
  omega

/-- `RtAllocZero`, which clears the block with a `memset`. -/
theorem rtAllocZero_run (granted : ℕ → Bool) (block : Bytes) (n : ℕ) :
    rtAllocZero granted n block =
      if granted n = false then .ok (false, block)
      else if n > rtInsaneLen then .error .insaneLen
      else .ok (true, List.replicate n 0) := by
  unfold rtAllocZero
  cases granted n with
  | false => rfl
  | true =>
      simp only [Bool.not_true, Bool.false_eq_true, if_false, reduceCtorEq]
      split
      · rfl
      · rfl

/-- The stores of `TryFile`, on a block of the right size. -/
theorem fillPath_run (h : path.length ≤ 519) (hsize : bootSize nodes path ≤ rtInsaneLen)
    (hblock : block.length = bootSize nodes path) :
    fillPath (onDisk nodes behind) path (nodesSize nodes) (path.length + 1)
      (4 + (path.length + 1) * 2) block = .ok ((), bootBuffer nodes path h) := by
  have hnodes : nodesSize nodes = (nodes.flatMap DevNode.bytes).length := rfl
  have hpath : (bytes16 (path ++ [0])).length = (path.length + 1) * 2 := by
    rw [length_bytes16, List.length_append, List.length_singleton]
  rw [bootSize] at hsize hblock
  have hdevice : (onDisk nodes behind).take (nodesSize nodes) = nodes.flatMap DevNode.bytes := by
    rw [onDisk, hnodes, List.take_left]
  have hcopied : copyToBlock 0 (onDisk nodes behind) (nodesSize nodes) (Cells.written block 0 []) =
      .ok ((), Cells.written block 0 ([] ++ (onDisk nodes behind).take (nodesSize nodes))) :=
    copyToBlock_after (by omega) (by rw [onDisk, List.length_append]; omega) rfl (by omega)
  rw [written_nil, hdevice, List.nil_append] at hcopied
  -- The device's nodes and the header of the file node.
  obtain ⟨front, hfront⟩ : ∃ front, front = nodes.flatMap DevNode.bytes ++
      [mediaDevicePath, mediaFilepathDp, UInt8.ofNat (4 + (path.length + 1) * 2),
        UInt8.ofNat ((4 + (path.length + 1) * 2) >>> 8)] := ⟨_, rfl⟩
  have hlength : front.length = nodesSize nodes + 4 := by
    rw [hfront, List.length_append, hnodes]
    rfl
  have hheader : storeHeader (nodesSize nodes) mediaDevicePath mediaFilepathDp
      (UInt8.ofNat (4 + (path.length + 1) * 2)) (UInt8.ofNat ((4 + (path.length + 1) * 2) >>> 8))
      (Cells.written block 0 (nodes.flatMap DevNode.bytes)) =
        .ok ((), Cells.written block 0 front) := by
    rw [hfront]
    exact storeHeader_after _ _ _ _ hnodes (by omega)
  have hfile : copyToBlock (nodesSize nodes + 4) (bytes16 (path ++ [0])) ((path.length + 1) * 2)
      (Cells.written block 0 front) =
        .ok ((), Cells.written block 0 (front ++ bytes16 (path ++ [0]))) := by
    have hcopy : copyToBlock (nodesSize nodes + 4) (bytes16 (path ++ [0]))
        ((path.length + 1) * 2) (Cells.written block 0 front) = .ok ((), Cells.written block 0
          (front ++ (bytes16 (path ++ [0])).take ((path.length + 1) * 2))) :=
      copyToBlock_after (by omega) (by omega) hlength.symm (by omega)
    rw [← hpath, List.take_length, hpath] at hcopy
    exact hcopy
  have hend : storeHeader (nodesSize nodes + (4 + (path.length + 1) * 2)) endDevicePathType
      endEntireDevicePathSubtype 4 0 (Cells.written block 0 (front ++ bytes16 (path ++ [0]))) =
      .ok ((), Cells.written block 0 (front ++ bytes16 (path ++ [0]) ++
        [endDevicePathType, endEntireDevicePathSubtype, 4, 0])) :=
    storeHeader_after _ _ _ _ (by rw [List.length_append, hlength, hpath]; omega) (by omega)
  have hall : Cells.written block 0 (bootBuffer nodes path h) = bootBuffer nodes path h :=
    written_all (by rw [length_bootBuffer, hblock, bootSize])
  rw [hfront, ← bootBuffer_parts h, hall, ← hfront] at hend
  rw [fillPath, bind_ok hcopied, bind_ok hheader, bind_ok hfile, hend]

/-- The three ways in which `TryFile` ends before or at `LoadImage`. -/
theorem bootPath_run (granted : ℕ → Bool) (nodes : List DevNode) (behind block : Bytes)
    (hne : path ≠ []) (hnul : 0 ∉ path) (h : path.length ≤ 519) :
    bootPath granted (some (onDisk nodes behind)) path block =
      if granted (bootSize nodes path) = false then .ok (.failed efiOutOfResources, block)
      else if bootSize nodes path > rtInsaneLen then .error .insaneLen
      else .ok (.load (bootSize nodes path) (bootBuffer nodes path h),
        bootBuffer nodes path h) := by
  obtain ⟨c, rest, hpath⟩ : ∃ c rest, path = c :: rest := List.exists_cons_of_ne_nil hne
  have hc : c ≠ 0 := by
    rintro rfl
    exact hnul (hpath ▸ List.mem_cons_self)
  have hread : (fetch .outside (path ++ [0]) 0 : PathM UInt16) block = .ok (c, block) := by
    rw [hpath]
    rfl
  have halloc := rtAllocZero_run granted block (bootSize nodes path)
  unfold bootPath
  simp only
  rw [bind_ok hread, if_neg hc, bind_ok (devPathLen_run nodes behind block),
    bind_ok (strLen16_run hnul), ← bootSize]
  by_cases hgranted : granted (bootSize nodes path) = false
  · rw [if_pos hgranted] at halloc ⊢
    rw [bind_ok halloc]
    rfl
  rw [if_neg hgranted] at halloc ⊢
  by_cases hsize : bootSize nodes path > rtInsaneLen
  · rw [if_pos hsize] at halloc ⊢
    rw [bind_error halloc]
  · rw [if_neg hsize] at halloc ⊢
    have hfill : fillPath (onDisk nodes behind) path (nodesSize nodes) (path.length + 1)
        (4 + (path.length + 1) * 2) (List.replicate (bootSize nodes path) 0) =
        .ok ((), bootBuffer nodes path h) :=
      fillPath_run h (Nat.le_of_not_lt hsize) List.length_replicate
    rw [bind_ok halloc]
    simp only [Bool.not_true, Bool.false_eq_true, if_false]
    rw [bind_ok hfill]
    rfl

end Run

/-! ## What the firmware reads -/

/-- A length below 2^16, read as the firmware does. -/
theorem le16_value {n : ℕ} (h : n < 65536) :
    (UInt8.ofNat n).toNat + 256 * (UInt8.ofNat (n >>> 8)).toNat = n := by
  rw [UInt8.toNat_ofNat', UInt8.toNat_ofNat', Nat.shiftRight_eq_div_pow]
  omega

theorem parseNodes_onDisk {nodes : List DevNode} {behind : Bytes} {rounds : ℕ}
    (h : nodes.length < rounds) :
    parseNodes rounds (onDisk nodes behind) = some (nodes, behind) := by
  induction nodes generalizing rounds with
  | nil =>
      obtain ⟨rounds, rfl⟩ : ∃ k, rounds = k + 1 := Nat.exists_eq_add_one.mpr h
      rfl
  | cons n nodes ih =>
      rw [List.length_cons] at h
      obtain ⟨rounds, rfl⟩ : ∃ k, rounds = k + 1 := Nat.exists_eq_add_one.mpr (by omega)
      have hfits : n.size < 65536 := n.fits
      have hdata : n.size - 4 = n.data.length := Nat.add_sub_cancel_left 4 _
      have hlong : 4 ≤ n.size := Nat.le_add_right 4 _
      have hmem : onDisk (n :: nodes) behind = n.type :: n.subType :: UInt8.ofNat n.size ::
          UInt8.ofNat (n.size >>> 8) :: (n.data ++ onDisk nodes behind) :=
        onDisk_cons n nodes behind
      rw [hmem, parseNodes]
      simp only [le16_value hfits, dif_neg n.notEnd, hdata, List.take_left, List.drop_left]
      rw [dif_pos ⟨hlong, by rw [List.length_append]; omega⟩, ih (by omega)]
      rfl

theorem parsePath_onDisk (nodes : List DevNode) (behind : Bytes) :
    parsePath (onDisk nodes behind) = some (nodes, behind) := by
  apply parseNodes_onDisk
  exact length_lt_onDisk nodes behind

/-- **The boot path for a Shell file is well formed.**  The buffer that `TryFile` passes to
`LoadImage` holds the nodes of the device, one node with the file and the end, which is
where the buffer ends too.  `TryFile` gets there when it gets its memory, unless the path
is so long that clearing this counts as insane. -/
theorem bootPath_wellFormed (granted : ℕ → Bool) (nodes : List DevNode) (behind : Bytes)
    (path : List UInt16) (hne : path ≠ []) (hnul : 0 ∉ path) (h : path.length ≤ 519) :
    (∀ allocated dp block, bootPath granted (some (onDisk nodes behind)) path [] =
        .ok (.load allocated dp, block) →
      parsePath dp = some (nodes ++ [fileNode path h], []) ∧ dp.length = allocated ∧
        devPathLen dp block = .ok (nodesSize nodes + (fileNode path h).size, block)) ∧
      (granted (bootSize nodes path) = true → bootSize nodes path ≤ rtInsaneLen →
        ∃ dp, bootPath granted (some (onDisk nodes behind)) path [] =
          .ok (.load (bootSize nodes path) dp, dp)) ∧
      ∀ e, bootPath granted (some (onDisk nodes behind)) path [] = .error e →
        e = .insaneLen ∧ rtInsaneLen < bootSize nodes path := by
  have hrun := bootPath_run granted nodes behind [] hne hnul h
  refine ⟨?_, ?_, ?_⟩
  · intro allocated dp block hload
    rw [hrun] at hload
    split at hload
    · cases hload
    split at hload
    · cases hload
    cases hload
    -- the loaded path is parsed back, and measured by the function that measured its front
    have hsize : nodesSize (nodes ++ [fileNode path h]) =
        nodesSize nodes + (fileNode path h).size := by
      rw [nodesSize, List.flatMap_append, List.length_append, List.flatMap_singleton,
        DevNode.length_bytes, nodesSize]
    refine ⟨parsePath_onDisk _ [], length_bootBuffer h, ?_⟩
    rw [← hsize]
    exact devPathLen_run (nodes ++ [fileNode path h]) [] _
  · intro hgranted hsane
    refine ⟨bootBuffer nodes path h, ?_⟩
    rw [hrun, if_neg (by rw [hgranted]; decide), if_neg (Nat.not_lt.mpr hsane)]
  · intro e hfault
    rw [hrun] at hfault
    split at hfault
    · cases hfault
    split at hfault
    · next hinsane =>
        cases hfault
        exact ⟨rfl, hinsane⟩
    · cases hfault

/-- A device path of two instances, and the file `A`. -/
theorem bootPath_wellFormed_instances :
    let nodes : List DevNode := [⟨1, 1, [0, 0], by decide, by decide⟩,
      ⟨endDevicePathType, 1, [], by decide, by decide⟩, ⟨2, 1, [7], by decide, by decide⟩]
    (∀ allocated dp block, bootPath (fun _ => true) (some (onDisk nodes [9])) [65] [] =
        .ok (.load allocated dp, block) →
      parsePath dp = some (nodes ++ [fileNode [65] (by decide)], []) ∧ dp.length = allocated ∧
        devPathLen dp block = .ok (nodesSize nodes + (fileNode [65] (by decide)).size, block)) ∧
      (true = true → bootSize nodes [65] ≤ rtInsaneLen →
        ∃ dp, bootPath (fun _ => true) (some (onDisk nodes [9])) [65] [] =
          .ok (.load (bootSize nodes [65]) dp, dp)) ∧
      ∀ e, bootPath (fun _ => true) (some (onDisk nodes [9])) [65] [] = .error e →
        e = .insaneLen ∧ rtInsaneLen < bootSize nodes [65] :=
  bootPath_wellFormed (fun _ => true) _ [9] [65] (by decide) (by decide) (by decide)

end EfiSshServer
