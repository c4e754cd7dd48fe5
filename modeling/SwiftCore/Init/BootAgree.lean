/-
Do the queries on the boot images agree (`file_metadata`, `is_directory`, `read`, `readdir_path` of `core/init/fs.rs`)?

They agree about a path (`Agree`) if a directory is what `file_metadata` calls one, only files are read, with the size it
reports, and exactly directories are listed. For well-formed images and paths without `.` and `..`:
- `agree_iff`: they agree exactly if the node shown is a directory by its whole type and not by one bit of it (`types`), no
  directory of the initfs lies behind another node of the rootfs (`dirs`), no readable file of the initfs lies behind a
  node of the rootfs that is not one (`files`), and a directory can be listed (`lists`).
- `agree_at_root`, `socket_disagrees`: an image with a socket, which counts as a directory.
-/
import SwiftCore.Init.BootDirs

namespace SwiftCore.Init

open Bytes Checked

/-! ## Agreement -/

/-- the file type of a directory -/
def TypeDir (mode : UInt16) : Prop := mode &&& 0xF000 = 0x4000
  deriving Decidable

structure Agree (rootfs initfs : Image) (path : List UInt8) : Prop where
  directory : isDirectory rootfs initfs path = .ok true ↔
    ∃ mode size, fileMetadata rootfs initfs path = .ok (mode, size) ∧ TypeDir mode
  data : ∀ d, read rootfs initfs path = .ok d →
    ∃ mode size, fileMetadata rootfs initfs path = .ok (mode, size) ∧ ¬ TypeDir mode ∧ d.length = size
  listing : (∃ names, readdirPath rootfs initfs path = .ok names) ↔ isDirectory rootfs initfs path = .ok true

variable (image : Image)

/-- what a path names in an image -/
def named (path : List UInt8) : Option Node := (node image path).toOption

/-- a well-formed node: a directory of whole blocks of records; block devices and sockets have no data -/
structure NodeOk (n : Node) : Prop where
  dir : TypeDir n.inode.mode → DirOk image n.sb n.inode
  special : isDir n.inode.mode = true → ¬ TypeDir n.inode.mode → n.inode.size = 0

def WellFormed : Prop := ∀ path n, named image path = some n → NodeOk image n

def IsFile (n : Node) : Prop := isDir n.inode.mode = false ∧ Readable image n.sb n.inode

def IsListed (n : Node) : Prop := isDir n.inode.mode = true ∧ Listable image n.sb n.inode

structure Clear (rootfs initfs : Image) (path : List UInt8) : Prop where
  types : ∀ n, (named rootfs path).or (named initfs path) = some n → isDir n.inode.mode = true → TypeDir n.inode.mode
  dirs : ∀ x y, named rootfs path = some x → named initfs path = some y → isDir y.inode.mode = true →
    isDir x.inode.mode = true
  files : segments path ≠ [] → ∀ x y, named rootfs path = some x → named initfs path = some y → IsFile initfs y →
    IsFile rootfs x ∨ isDir x.inode.mode = false ∧ x.inode.size = y.inode.size
  lists : (∃ n, (named rootfs path = some n ∨ named initfs path = some n) ∧ isDir n.inode.mode = true) →
    (∃ n, named rootfs path = some n ∧ IsListed rootfs n) ∨ ∃ n, named initfs path = some n ∧ IsListed initfs n

theorem TypeDir.isDir {mode : UInt16} (h : TypeDir mode) : Init.isDir mode = true := by
  have hbit : mode &&& 0x4000 = 0x4000 := by
    calc mode &&& 0x4000 = mode &&& (0xF000 &&& 0x4000) := rfl
      _ = mode &&& 0xF000 &&& 0x4000 := (UInt16.and_assoc _ _ _).symm
      _ = 0x4000 &&& 0x4000 := by rw [h]
  simp [Init.isDir, hbit]

/-! ## Each query by what the path names -/

variable {image rootfs initfs : Image} {path : List UInt8}

theorem node_eq (image : Image) (path : List UInt8) :
    node image path = match named image path with | some n => .ok n | none => .absent := by
  unfold named
  rcases returns_iff.1 (returns_node image path) with hnone | ⟨n, hn, -⟩
  · rw [hnone]
    rfl
  · rw [hn]
    rfl

theorem named_facts {n : Node} (h : named image path = some n) :
    inode image n.sb n.num = .ok n.inode ∧ (segments path ≠ [] → n.sb.blockSize ≠ 0) :=
  ((returns_node image path).of_ok (Exec.toOption_eq_some.1 h)).2

theorem superblock_nil : superblock [] = .absent := rfl

/-- an empty image answers no query -/
theorem rootfsFirst_eq {α : Type} {query : Image → Exec α} (h : query [] = .absent) (rootfs initfs : Image) :
    rootfsFirst query rootfs initfs = (query rootfs).orElse (query initfs) := by
  unfold rootfsFirst
  by_cases hempty : rootfs = []
  · rw [if_neg (by simp [hempty]), hempty, h, Exec.absent_orElse]
  · rw [if_pos hempty]

theorem fileMetadata_eq (h : Plain (segments path)) :
    fileMetadata rootfs initfs path =
      match (named rootfs path).or (named initfs path) with
      | some n => .ok (n.inode.mode, if segments path = [] then 0 else n.inode.size.toNat)
      | none => .absent := by
  rw [fileMetadata, rootfsFirst_eq (by rw [fileMetadataIn, superblock_nil]; rfl), fileMetadataIn_eq _ h,
    fileMetadataIn_eq _ h, node_eq, node_eq]
  cases named rootfs path with
  | some n => rfl
  | none => cases named initfs path <;> rfl

theorem isDirectory_iff (h : Plain (segments path)) :
    isDirectory rootfs initfs path = .ok true ↔
      ∃ n, (named rootfs path = some n ∨ named initfs path = some n) ∧ isDir n.inode.mode = true := by
  rw [isDirectory, rootfsFirst_eq (by rw [resolveDirInodeIn, superblock_nil]; rfl), resolveDirInodeIn_eq _ h,
    resolveDirInodeIn_eq _ h, node_eq, node_eq]
  cases named rootfs path with
  | none =>
    cases named initfs path with
    | none => simp
    | some y => cases hy : isDir y.inode.mode <;> simp [hy]
  | some x =>
    cases named initfs path with
    | none => cases hx : isDir x.inode.mode <;> simp [hx]
    | some y => cases hx : isDir x.inode.mode <;> cases hy : isDir y.inode.mode <;> simp [hx, hy]

theorem readdirLoop_ok_iff {n : Node} (h : NodeOk image n) (hdir : isDir n.inode.mode = true) :
    (∃ names, readdirLoop image n.sb n.inode = .ok names) ↔ Listable image n.sb n.inode := by
  by_cases htype : TypeDir n.inode.mode
  · exact lists_iff_listable (h.dir htype)
  · have hempty := h.special hdir htype
    have hzero : n.inode.size.toNat / n.sb.blockSize.toNat = 0 := by rw [hempty, UInt32.toNat_zero, Nat.zero_div]
    have hdone : Lists image n.sb n.inode (Cursor.start n.inode) True := lists_done (by simp [Cursor.start, hempty])
    refine iff_of_true ((hdone [] _ (Cursor.measure_lt_fuel n.sb _)).2 trivial) ⟨?_, ?_⟩
    · rw [hzero]
      exact Nat.zero_le _
    · intro k hk
      omega

theorem readdirPathIn_ok_iff (hok : WellFormed image) (h : Plain (segments path)) :
    (∃ names, readdirPathIn image path = .ok names) ↔ ∃ n, named image path = some n ∧ IsListed image n := by
  rw [readdirPathIn_eq _ h, node_eq]
  cases hn : named image path with
  | none => simp
  | some n =>
    simp only [Exec.ok_bind]
    cases hdir : isDir n.inode.mode with
    | false => simp [IsListed, hdir]
    | true =>
      rw [if_pos rfl, readdirLoop_ok_iff (hok path n hn) hdir]
      simp [IsListed, hdir]

theorem orElse_ok_iff {α : Type} {x y : Exec α} (hx : Returns x fun _ => True) :
    (∃ a, x.orElse y = .ok a) ↔ (∃ a, x = .ok a) ∨ ∃ a, y = .ok a := by
  rcases returns_iff.1 hx with rfl | ⟨a, rfl, -⟩ <;> simp

theorem readdirPath_ok_iff (hr : WellFormed rootfs) (hi : WellFormed initfs) (h : Plain (segments path)) :
    (∃ names, readdirPath rootfs initfs path = .ok names) ↔
      (∃ n, named rootfs path = some n ∧ IsListed rootfs n) ∨ ∃ n, named initfs path = some n ∧ IsListed initfs n := by
  rw [readdirPath, rootfsFirst_eq (by rw [readdirPathIn, superblock_nil]; rfl),
    orElse_ok_iff (returns_readdirPathIn rootfs path), readdirPathIn_ok_iff hr h, readdirPathIn_ok_iff hi h]

theorem readPathIn_ok_iff (h : Plain (segments path)) :
    (∃ d, readPathIn image path = .ok d) ↔ segments path ≠ [] ∧ ∃ n, named image path = some n ∧ IsFile image n := by
  rw [readPathIn_eq _ h, node_eq]
  cases hn : named image path with
  | none => simp
  | some n =>
    obtain ⟨hinode, hsize⟩ := named_facts hn
    simp only [Exec.ok_bind]
    by_cases hroot : segments path = []
    · simp [hroot]
    cases hdir : isDir n.inode.mode with
    | true => simp [IsFile, hdir]
    | false =>
      rw [if_neg (by simp [hroot]), readInodeData_ok_iff (hsize hroot) hinode hdir]
      simp [IsFile, hdir, hroot]

/-- the data of a file has its size -/
theorem length_of_readPathIn (h : Plain (segments path)) {d : List UInt8} (hd : readPathIn image path = .ok d) {n : Node}
    (hn : named image path = some n) : d.length = n.inode.size.toNat := by
  obtain ⟨hroot, n', hn', hfile, -⟩ := (readPathIn_ok_iff h).1 ⟨d, hd⟩
  obtain rfl : n = n' := by simpa [hn] using hn'
  obtain ⟨hinode, hsize⟩ := named_facts hn
  rw [readPathIn_eq _ h, node_eq, hn] at hd
  simp only [Exec.ok_bind] at hd
  rw [if_neg (by simp [hroot, hfile])] at hd
  obtain ⟨ino, hino, hlength⟩ := (returns_readInodeData image (hsize hroot) n.num).of_ok hd
  obtain rfl : n.inode = ino := by simpa [hinode] using hino
  exact hlength hfile

theorem read_eq_ok {d : List UInt8} :
    read rootfs initfs path = .ok d ↔
      readPathIn rootfs path = .ok d ∨ (¬ ∃ d', readPathIn rootfs path = .ok d') ∧ readPathIn initfs path = .ok d := by
  rw [read, rootfsFirst_eq (by rw [readPathIn, superblock_nil]; rfl)]
  rcases returns_iff.1 (returns_readPathIn rootfs path) with hnone | ⟨d', hd', -⟩
  · simp [hnone]
  · simp [hd']

/-! ## From the condition to agreement and back -/

theorem Clear.agree (hr : WellFormed rootfs) (hi : WellFormed initfs) (h : Plain (segments path))
    (hclear : Clear rootfs initfs path) : Agree rootfs initfs path where
  directory := by
    rw [isDirectory_iff h, fileMetadata_eq h]
    constructor
    · rintro ⟨n, hn, hdir⟩
      cases hx : named rootfs path with
      | none =>
        have hy : named initfs path = some n := hn.resolve_left (by simp [hx])
        simp only [hy, Option.none_or]
        exact ⟨_, _, rfl, hclear.types n (by simp [hx, hy]) hdir⟩
      | some x =>
        have hxdir : isDir x.inode.mode = true := by
          rcases hn with hn | hn
          · obtain rfl : x = n := by simpa [hx] using hn
            exact hdir
          · exact hclear.dirs x n hx hn hdir
        exact ⟨_, _, rfl, hclear.types x (by simp [hx]) hxdir⟩
    · rintro ⟨mode, size, hmeta, htype⟩
      cases hshown : (named rootfs path).or (named initfs path) with
      | none => simp [hshown] at hmeta
      | some n =>
        simp only [hshown] at hmeta
        cases hmeta
        refine ⟨n, ?_, htype.isDir⟩
        rcases Option.or_eq_some_iff.1 hshown with hn | ⟨-, hn⟩
        · exact .inl hn
        · exact .inr hn
  data := by
    intro d hd
    rw [fileMetadata_eq h]
    rcases read_eq_ok.1 hd with hd | ⟨hnot, hd⟩
    · obtain ⟨hroot, x, hx, hfile, -⟩ := (readPathIn_ok_iff h).1 ⟨d, hd⟩
      simp only [hx, Option.some_or, if_neg hroot]
      refine ⟨_, _, rfl, fun htype => ?_, length_of_readPathIn h hd hx⟩
      simp [htype.isDir] at hfile
    · obtain ⟨hroot, y, hy, hfile⟩ := (readPathIn_ok_iff h).1 ⟨d, hd⟩
      have hlength := length_of_readPathIn h hd hy
      cases hx : named rootfs path with
      | none =>
        simp only [hy, Option.none_or, if_neg hroot]
        refine ⟨_, _, rfl, fun htype => ?_, hlength⟩
        simpa [htype.isDir] using hfile.1
      | some x =>
        -- the rootfs shows its own node, which is no file that can be read
        have hnot' : ¬ IsFile rootfs x := fun hx' => hnot ((readPathIn_ok_iff h).2 ⟨hroot, x, hx, hx'⟩)
        obtain ⟨hxdir, hsize⟩ := (hclear.files hroot x y hx hy hfile).resolve_left hnot'
        simp only [Option.some_or, if_neg hroot]
        refine ⟨_, _, rfl, fun htype => ?_, by rw [hlength, hsize]⟩
        simp [htype.isDir] at hxdir
  listing := by
    rw [readdirPath_ok_iff hr hi h, isDirectory_iff h]
    refine ⟨?_, hclear.lists⟩
    rintro (⟨n, hn, hlisted⟩ | ⟨n, hn, hlisted⟩)
    · exact ⟨n, .inl hn, hlisted.1⟩
    · exact ⟨n, .inr hn, hlisted.1⟩

/-- a directory by its bit is shown as a directory -/
theorem Agree.type_of_dir (h : Plain (segments path)) (hagree : Agree rootfs initfs path) {n shown : Node}
    (hshown : (named rootfs path).or (named initfs path) = some shown)
    (hn : named rootfs path = some n ∨ named initfs path = some n) (hdir : isDir n.inode.mode = true) :
    TypeDir shown.inode.mode := by
  obtain ⟨mode, size, hmeta, htype⟩ := hagree.directory.1 ((isDirectory_iff h).2 ⟨n, hn, hdir⟩)
  rw [fileMetadata_eq h, hshown] at hmeta
  simp only [Exec.ok.injEq, Prod.mk.injEq] at hmeta
  rwa [hmeta.1]

theorem Agree.clear (hr : WellFormed rootfs) (hi : WellFormed initfs) (h : Plain (segments path))
    (hagree : Agree rootfs initfs path) : Clear rootfs initfs path where
  types := by
    intro n hshown hdir
    have hn : named rootfs path = some n ∨ named initfs path = some n :=
      (Option.or_eq_some_iff.1 hshown).imp_right And.right
    exact hagree.type_of_dir h hshown hn hdir
  dirs := by
    intro x y hx hy hdir
    exact (hagree.type_of_dir h (by simp [hx]) (.inr hy) hdir).isDir
  files := by
    intro hroot x y hx hy hfile
    by_cases hxfile : IsFile rootfs x
    · exact .inl hxfile
    right
    have hnot : ¬ ∃ d, readPathIn rootfs path = .ok d := by
      intro hd
      obtain ⟨-, x', hx', hfile'⟩ := (readPathIn_ok_iff h).1 hd
      obtain rfl : x = x' := by simpa [hx] using hx'
      exact hxfile hfile'
    obtain ⟨d, hd⟩ := (readPathIn_ok_iff h).2 ⟨hroot, y, hy, hfile⟩
    obtain ⟨mode, size, hmeta, htype, hsize⟩ := hagree.data d (read_eq_ok.2 (.inr ⟨hnot, hd⟩))
    rw [fileMetadata_eq h] at hmeta
    simp only [hx, Option.some_or, if_neg hroot] at hmeta
    cases hmeta
    constructor
    · by_contra hdir
      exact htype (hagree.type_of_dir h (by simp [hx]) (.inl hx) (by simpa using hdir))
    · rw [← UInt32.toNat_inj, ← hsize, length_of_readPathIn h hd hy]
  lists := by
    intro hdir
    exact (readdirPath_ok_iff hr hi h).1 (hagree.listing.2 ((isDirectory_iff h).2 hdir))

/-! ## An image with a socket -/

def pad (n : ℕ) (bytes : List UInt8) : List UInt8 := bytes ++ List.replicate (n - bytes.length) 0

/-- an inode of 128 bytes with one block -/
def inodeBytes (mode size block : ℕ) : List UInt8 :=
  pad 128 (pad 4 (leBytes 2 mode) ++ (pad 36 (leBytes 4 size) ++ leBytes 4 block))

def recordBytes (inode recLen : ℕ) (name : List UInt8) : List UInt8 :=
  pad recLen (leBytes 4 inode ++ (leBytes 2 recLen ++ (UInt8.ofNat name.length :: 0 :: name)))

/-- five blocks of 1024 bytes: nothing, superblock, group descriptor, inodes, the root with an entry `s` for a socket -/
@[irreducible] def withSocket : Image :=
  [pad 1024 [],
    pad 1024 (pad 40 [] ++ (pad 16 (leBytes 4 8) ++ (pad 32 (leBytes 2 0xEF53) ++ leBytes 2 128))),
    pad 1024 (pad 8 [] ++ leBytes 4 3),
    pad 1024 (pad 128 [] ++ (inodeBytes 0x41ED 1024 4 ++ inodeBytes 0xC1ED 0 0)),
    recordBytes 2 12 dot, recordBytes 2 12 dotdot, recordBytes 3 1000 [115]].flatten

theorem toNat_1024_le : (1024 : UInt32).toNat ≤ 2 ^ 31 := by decide

def socketSb : Superblock := ⟨1024, 128, 8, toNat_1024_le⟩

def rootInode : Inode := ⟨0x41ED, 1024, 4 :: List.replicate 14 0, rfl⟩

def socketInode : Inode := ⟨0xC1ED, 0, List.replicate 15 0, rootInode.length_blocks⟩

/-- what the reader finds in the image, evaluated at once -/
theorem facts_withSocket : (superblock withSocket = .ok socketSb ∧ inode withSocket socketSb 2 = .ok rootInode ∧
      inode withSocket socketSb 3 = .ok socketInode) ∧
    blockRecords withSocket socketSb rootInode 0 = some [⟨2, dot⟩, ⟨2, dotdot⟩, ⟨3, [115]⟩] ∧
    turn withSocket socketSb rootInode ⟨0, 0, 1024⟩ = .ok (.entry ⟨0, 12, 1012⟩ 2 (some dot)) ∧
    turn withSocket socketSb rootInode ⟨0, 12, 1012⟩ = .ok (.entry ⟨0, 24, 1000⟩ 2 (some dotdot)) ∧
    turn withSocket socketSb rootInode ⟨0, 24, 1000⟩ = .ok (.entry ⟨0, 1024, 0⟩ 3 (some [115])) ∧
    findInodeInDir withSocket socketSb rootInode [115] = .ok 3 := by decide +kernel

theorem superblock_withSocket : superblock withSocket = .ok socketSb := facts_withSocket.1.1

theorem inode_root : inode withSocket socketSb 2 = .ok rootInode := facts_withSocket.1.2.1

theorem inode_socket : inode withSocket socketSb 3 = .ok socketInode := facts_withSocket.1.2.2

theorem returns_find_root (name : List UInt8) :
    Returns (findInodeInDir withSocket socketSb rootInode name) fun num => num = 2 ∨ num = 3 := by
  refine returns_findInodeInDir_of name
    (I := fun c => c = ⟨0, 0, 1024⟩ ∨ c = ⟨0, 12, 1012⟩ ∨ c = ⟨0, 24, 1000⟩ ∨ c = ⟨0, 1024, 0⟩)
    (.inl (by decide)) ?_
  intro c hc hremaining
  obtain ⟨-, -, hdot, hdotdot, hsocket, -⟩ := facts_withSocket
  rcases hc with rfl | rfl | rfl | rfl
  · simp [hdot]
  · simp [hdotdot]
  · simp [hsocket]
  · exact absurd rfl hremaining

theorem returns_find_socket (name : List UInt8) :
    Returns (findInodeInDir withSocket socketSb socketInode name) fun num => num = 2 ∨ num = 3 :=
  returns_findInodeInDir_of name (I := fun c => c.remaining = 0) rfl fun _ hc hremaining => absurd hc hremaining

theorem returns_nodeFrom_withSocket (parts : List (List UInt8)) {num : UInt32} {current : Inode}
    (h : num = 2 ∧ current = rootInode ∨ num = 3 ∧ current = socketInode) :
    Returns (nodeFrom withSocket socketSb num current parts)
      fun last => last.2 = rootInode ∨ last.2 = socketInode := by
  induction parts generalizing num current with
  | nil => exact h.imp And.right And.right
  | cons part parts ih =>
    have hfind : Returns (findInodeInDir withSocket socketSb current part) fun num => num = 2 ∨ num = 3 := by
      rcases h with ⟨-, rfl⟩ | ⟨-, rfl⟩
      · exact returns_find_root part
      · exact returns_find_socket part
    refine hfind.bind fun next hnext => ?_
    rcases hnext with rfl | rfl
    · rw [inode_root, Exec.ok_bind]
      exact ih (.inl ⟨rfl, rfl⟩)
    · rw [inode_socket, Exec.ok_bind]
      exact ih (.inr ⟨rfl, rfl⟩)

theorem node_withSocket (path : List UInt8) :
    node withSocket path = nodeFrom withSocket socketSb 2 rootInode (segments path) >>= fun last =>
      .ok ⟨socketSb, last.1, last.2⟩ := by
  rw [node, superblock_withSocket, Exec.ok_bind, inode_root, Exec.ok_bind]
  rfl

theorem wellFormed_withSocket : WellFormed withSocket := by
  intro path n hn
  have hnode : Returns (node withSocket path) fun n => n.sb = socketSb ∧ (n.inode = rootInode ∨ n.inode = socketInode) := by
    rw [node_withSocket]
    exact (returns_nodeFrom_withSocket _ (.inl ⟨rfl, rfl⟩)).bind fun last hlast => ⟨rfl, hlast⟩
  obtain ⟨hsb, hinode⟩ := hnode.of_ok (Exec.toOption_eq_some.1 hn)
  rcases hinode with hinode | hinode
  · refine ⟨fun _ => ?_, fun _ htype => ?_⟩
    · rw [hsb, hinode]
      refine ⟨by decide, by decide, fun k hk _ => ?_⟩
      obtain rfl : k = 0 := Nat.lt_one_iff.1 hk
      rw [facts_withSocket.2.1]
      rfl
    · rw [hinode] at htype
      exact absurd (by decide : TypeDir rootInode.mode) htype
  · refine ⟨fun htype => ?_, fun _ _ => by rw [hinode]; rfl⟩
    rw [hinode] at htype
    exact absurd htype (by decide : ¬ TypeDir socketInode.mode)

theorem named_nil (path : List UInt8) : named [] path = none := rfl

theorem wellFormed_nil : WellFormed [] := by
  intro path n hn
  rw [named_nil] at hn
  simp at hn

theorem named_root : named withSocket [slash] = some ⟨socketSb, 2, rootInode⟩ := by
  have hsegments : segments [slash] = [] := by decide
  rw [named, node_withSocket, hsegments]
  rfl

theorem named_socket : named withSocket [115] = some ⟨socketSb, 3, socketInode⟩ := by
  have hsegments : segments [115] = [[115]] := by decide
  have hfind : findInodeInDir withSocket socketSb rootInode [115] = .ok 3 := facts_withSocket.2.2.2.2.2
  rw [named, node_withSocket, hsegments, nodeFrom, hfind, Exec.ok_bind, inode_socket]
  rfl

/-! ## The condition -/

/-- **When the queries agree.** -/
theorem agree_iff (rootfs initfs : Image) (path : List UInt8) (hr : WellFormed rootfs) (hi : WellFormed initfs)
    (h : Plain (segments path)) : Agree rootfs initfs path ↔ Clear rootfs initfs path :=
  ⟨fun hagree => hagree.clear hr hi h, fun hclear => hclear.agree hr hi h⟩

/-- the root of the image with a socket is one directory to all of them -/
theorem agree_at_root : Agree [] withSocket [slash] := by
  refine (agree_iff [] withSocket [slash] wellFormed_nil wellFormed_withSocket (by decide)).2 ⟨?_, ?_, ?_, ?_⟩
  · intro n hn _
    rw [named_nil, named_root, Option.none_or] at hn
    cases hn
    decide
  · intro x y hx
    simp [named_nil] at hx
  · intro hroot
    exact absurd (by decide) hroot
  · intro _
    refine .inr ⟨_, named_root, by decide, by decide, fun k hk rs hrs => ?_⟩
    obtain rfl : k = 0 := Nat.lt_one_iff.1 hk
    obtain rfl : [⟨2, dot⟩, ⟨2, dotdot⟩, ⟨3, [115]⟩] = rs := by simpa [facts_withSocket.2.1] using hrs
    decide +kernel

/-- a socket counts as a directory -/
theorem socket_disagrees : WellFormed [] ∧ WellFormed withSocket ∧ Plain (segments [115]) ∧ ¬ Agree [] withSocket [115] := by
  have hplain : Plain (segments [115]) := by decide
  refine ⟨wellFormed_nil, wellFormed_withSocket, hplain, fun hagree => ?_⟩
  have htype := hagree.type_of_dir hplain (by rw [named_nil, Option.none_or, named_socket]) (.inr named_socket) (by decide)
  exact absurd htype (by decide : ¬ TypeDir socketInode.mode)

end SwiftCore.Init
