import Xv6.Mkfs.Sound

/- How many blocks mkfs hands out: an inode takes its data blocks and, above NDIRECT of them,
an indirect block, however the bytes are divided into appends. -/
namespace Xv6.Mkfs

open Fs CString

section Append

variable {im im' : Image} {X : Nat} {p : List UInt8}

theorem iappendBlock_space {im1 : Image} {din din1 : Dinode} {n x count : Nat} (fresh : Fresh im)
    (shaped : Shaped im.blocks din count) (start : n ≤ count) (inside : n < MAXFILE)
    (block : iappendBlock im din n = (im1, din1, x)) :
    im1.freeblock + held count = im.freeblock + held (max count (n + 1)) := by
  have data := shaped.data n inside
  have indirect := shaped.indirect
  unfold iappendBlock at block
  by_cases direct : n < NDIRECT
  · rw [if_pos direct] at block
    rw [blockAddr_direct direct] at data
    split at block
    · have last : n = count := by omega
      cases block
      subst last
      rw [Nat.max_eq_right (Nat.le_succ n), held, held, if_neg (by omega), if_neg (by omega)]
      dsimp only
      omega
    · grind
  · rw [if_neg direct] at block
    split at block
    · have last : count = NDIRECT := by omega
      have zero : get32 (im.blocks im.freeblock) (n - NDIRECT) = 0 := by
        rw [fresh.zero _ (Nat.le_refl _), get32_zero]
      rw [iappendBlock.entry, setAddr_self] at block
      rw [if_pos zero] at block
      cases block
      have here : n = NDIRECT := by omega
      subst here last
      rfl
    · rename_i some
      have more : NDIRECT < count := indirect.mp some
      rw [blockAddr_entry (by omega) inside some] at data
      rw [iappendBlock.entry] at block
      split at block
      · have last : n = count := by omega
        cases block
        subst last
        rw [Nat.max_eq_right (Nat.le_succ n), held, held, if_pos more, if_pos (by omega)]
        dsimp only
        omega
      · grind

/-- The loop goes through if the file and the disk are large enough, and takes the blocks
that the inode did not have. -/
theorem iappendLoop_space {fuel off count : Nat} {din : Dinode} (enough : p.length ≤ fuel)
    (ready : Ready im X din off count) (fits : off + p.length ≤ MAXFILE * BSIZE)
    (room : im.freeblock + held (max count (blocksOf (off + p.length))) ≤ FSSIZE + held count) :
    ∃ im' din' off', iappendLoop fuel im din off p = some (im', din', off') ∧
      im'.freeblock + held count = im.freeblock + held (max count (blocksOf (off + p.length))) := by
  induction fuel generalizing im din off count p with
  | zero =>
    have none : p.length = 0 := by omega
    rw [none, Nat.add_zero, Nat.max_eq_left ready.start]
    exact ⟨im, din, off, rfl, rfl⟩
  | succ fuel ih =>
    rw [iappendLoop_succ]
    by_cases none : p.length = 0
    · rw [if_pos none, none, Nat.add_zero, Nat.max_eq_left ready.start]
      exact ⟨im, din, off, rfl, rfl⟩
    · have inside : off / BSIZE < MAXFILE := div_lt_maxfile (by omega)
      rcases block : iappendBlock im din (off / BSIZE) with ⟨im1, din1, x⟩
      rw [if_neg none, if_pos inside, Option.bind_some]
      have shaped := ready.flight.shaped
      have took := iappendBlock_space ready.fresh shaped (div_le_blocksOf.trans ready.start)
        inside block
      have reached : max (max count (off / BSIZE + 1)) (blocksOf (off + p.length)) =
          max count (blocksOf (off + p.length)) := max_blocksOf (by omega)
      have grows : held (max count (off / BSIZE + 1)) ≤ held
        (max count (blocksOf (off + p.length))) := by
        rw [← reached]
        exact held_mono (Nat.le_max_left _ _)
      have placed := ready.placed inside block (by omega)
      have positive : 0 < BSIZE - off % BSIZE := by
        simp only [BSIZE]
        omega
      have rest : (p.drop (min p.length (BSIZE - off % BSIZE))).length =
          p.length - min p.length (BSIZE - off % BSIZE) := List.length_drop
      have whole : off + min p.length (BSIZE - off % BSIZE) +
          (p.drop (min p.length (BSIZE - off % BSIZE))).length = off + p.length := by omega
      have later := ih (p := p.drop (min p.length (BSIZE - off % BSIZE))) (by omega)
        (ready.round inside placed p)
      rw [whole, reached] at later
      dsimp only at later
      obtain ⟨im', din', off', result, total⟩ := later fits (by omega)
      exact ⟨im', din', off', result, by omega⟩

theorem iappend_space (ok : ImageOk im) (allocated : (im.dinodes X).type ≠ .free)
    (fits : (im.dinodes X).size + p.length ≤ MAXFILE * BSIZE)
    (room : im.freeblock + held (blocksOf ((im.dinodes X).size + p.length)) ≤
      FSSIZE + held (blocksOf (im.dinodes X).size)) :
    ∃ im', iappend im X p = some im' ∧ im'.freeblock + held (blocksOf (im.dinodes X).size) =
      im.freeblock + held (blocksOf ((im.dinodes X).size + p.length)) := by
  have larger : max (blocksOf (im.dinodes X).size) (blocksOf ((im.dinodes X).size + p.length)) =
      blocksOf ((im.dinodes X).size + p.length) := by
    simp only [blocksOf, BSIZE]
    omega
  have looped := iappendLoop_space (Nat.le_refl p.length) (ok.ready allocated) fits
  rw [larger] at looped
  obtain ⟨im', din', off', result, total⟩ := looped room
  refine ⟨_, by rw [iappend, result, Option.map_some], ?_⟩
  exact total

end Append

section Files

variable {im im' : Image} {ents : List Dirent} {data : Nat → List UInt8}

/-- The blocks of the root directory with `count` entries. -/
def rootHeld (count : Nat) : Nat := held (blocksOf (DIRENTSIZE * count))

/-- The blocks of a file. -/
def fileHeld (file : Source) : Nat := held (blocksOf file.reads.flatten.length)

/-- The blocks of an image of the files. -/
def need (files : List Source) : Nat :=
  nmeta + rootHeld (2 + files.length) + (files.map fileHeld).sum

theorem rootHeld_mono {count more : Nat} (le : count ≤ more) : rootHeld count ≤ rootHeld more := by
  refine held_mono ?_
  simp only [blocksOf, BSIZE, DIRENTSIZE, DIRSIZ]
  omega

theorem reads_space {X : Nat} {reads : List (List UInt8)} (built : Built im ents data)
    (inside : ROOTINO < X) (below : X < im.freeinode)
    (fits : (im.dinodes X).size + reads.flatten.length ≤ MAXFILE * BSIZE)
    (room : im.freeblock + held (blocksOf ((im.dinodes X).size + reads.flatten.length)) ≤ FSSIZE +
      held (blocksOf (im.dinodes X).size)) :
    ∃ im', Runs.run (fun im buf => iappend im X buf) im reads = some im' ∧
      im'.freeblock + held (blocksOf (im.dinodes X).size) =
        im.freeblock + held (blocksOf ((im.dinodes X).size + reads.flatten.length)) := by
  induction reads generalizing im data with
  | nil => exact ⟨im, rfl, rfl⟩
  | cons buf rest ih =>
    rw [List.flatten_cons, List.length_append, ← Nat.add_assoc] at fits room ⊢
    have typed : (im.dinodes X).type ≠ .free := by
      rw [(built.files X inside below).1]
      decide
    have grows : held (blocksOf ((im.dinodes X).size + buf.length)) ≤
        held (blocksOf ((im.dinodes X).size + buf.length + rest.flatten.length)) := by
      refine held_mono ?_
      simp only [blocksOf, BSIZE]
      omega
    obtain ⟨next, taken, count⟩ := iappend_space built.ok typed (p := buf) (by omega) (by omega)
    have small : next.freeblock ≤ FSSIZE := by omega
    have grown := (iappend_grown built.ok typed taken small).2
    have size : (next.dinodes X).size = (im.dinodes X).size + buf.length := by rw [grown.dinode]
    have later := ih (built.append inside below taken small) (by rwa [grown.freeinode])
    rw [size] at later
    obtain ⟨im', result, total⟩ := later fits (by omega)
    exact ⟨im', Runs.run_cons_some.mpr ⟨next, taken, result⟩, by omega⟩

theorem addFile_space {file : Source} (built : Built im ents data) (few : im.freeinode < NINODES)
    (legal : file.name.contains 47 = false)
    (long : DIRENTSIZE * (ents.length + 1) ≤ MAXFILE * BSIZE)
    (fits : file.reads.flatten.length ≤ MAXFILE * BSIZE)
    (room : im.freeblock + rootHeld (ents.length + 1) + fileHeld file ≤ FSSIZE +
      rootHeld ents.length) :
    ∃ im', addFile im file = some im' ∧
      im'.freeblock + rootHeld ents.length = im.freeblock + rootHeld (ents.length + 1) + fileHeld
        file := by
  have new := built.alloc few
  have typed : ((ialloc im .file).dinodes ROOTINO).type ≠ .free := by
    rw [new.type]
    decide
  have width : (Dirent.bytes ⟨im.freeinode, strncpy (targetName file.name) DIRSIZ⟩).length =
    DIRENTSIZE := by
    simp only [Dirent.bytes, List.length_cons, strncpy_length, DIRENTSIZE]
    omega
  have entry := iappend_space new.ok typed
    (p := Dirent.bytes ⟨im.freeinode, strncpy (targetName file.name) DIRSIZ⟩)
  rw [width, new.size, ← Nat.mul_succ] at entry
  change _ → im.freeblock + rootHeld (ents.length + 1) ≤ FSSIZE + rootHeld ents.length → ∃ im' :
    Image, _ ∧
    im'.freeblock + rootHeld ents.length = im.freeblock + rootHeld (ents.length + 1) at entry
  obtain ⟨middle, taken, count⟩ := entry long (by omega)
  have small : middle.freeblock ≤ FSSIZE := by omega
  have short : im.freeinode < 2 ^ 16 := Nat.lt_trans few (by decide)
  have started := built.started
  have grown := (iappend_grown new.ok typed taken small).2
  have empty : (middle.dinodes im.freeinode).size = 0 := by
    rw [grown.others _ (by omega)]
    change (Function.update im.dinodes im.freeinode _ im.freeinode).size = 0
    rw [Function.update_self]
    rfl
  have next : middle.freeinode = im.freeinode + 1 := grown.freeinode
  have later := @reads_space _ _ _ _ file.reads
    (new.entry taken small short (strncpy_length _ _)) built.started (by omega)
  rw [empty, Nat.zero_add] at later
  change _ → middle.freeblock + fileHeld file ≤ FSSIZE + 0 → ∃ im' : Image, _ ∧
    im'.freeblock + 0 = middle.freeblock + fileHeld file at later
  obtain ⟨im', result, total⟩ := later fits (by omega)
  refine ⟨im', ?_, by omega⟩
  grind [addFile, Option.bind_eq_some_iff]

theorem addFiles_space {files : List Source} (built : Built im ents data)
    (few : im.freeinode + files.length ≤ NINODES)
    (legal : ∀ file ∈ files, file.name.contains 47 = false)
    (long : DIRENTSIZE * (ents.length + files.length) ≤ MAXFILE * BSIZE)
    (fits : ∀ file ∈ files, file.reads.flatten.length ≤ MAXFILE * BSIZE)
    (room : im.freeblock + rootHeld (ents.length + files.length) + (files.map fileHeld).sum ≤
      FSSIZE + rootHeld ents.length) :
    ∃ im', Runs.run addFile im files = some im' ∧ im'.freeblock + rootHeld ents.length =
      im.freeblock + rootHeld (ents.length + files.length) + (files.map fileHeld).sum := by
  induction files generalizing im ents data with
  | nil => exact ⟨im, rfl, rfl⟩
  | cons file rest ih =>
    rw [List.length_cons] at few
    rw [List.length_cons, Nat.add_comm rest.length, ← Nat.add_assoc] at long room ⊢
    rw [List.map_cons, List.sum_cons] at room ⊢
    have more : rootHeld (ents.length + 1) ≤ rootHeld (ents.length + 1 + rest.length) :=
      rootHeld_mono (Nat.le_add_right _ _)
    have single : DIRENTSIZE * (ents.length + 1) ≤ MAXFILE * BSIZE := by
      rw [Nat.mul_add] at long
      omega
    obtain ⟨next, taken, count⟩ := addFile_space built (by omega)
      (legal file List.mem_cons_self) single (fits file List.mem_cons_self) (by omega)
    obtain ⟨built1, number⟩ := built.file (by omega) taken (by omega)
    have later := ih built1 (by omega) fun other member =>
      legal other (List.mem_cons_of_mem _ member)
    rw [List.length_append, List.length_singleton] at later
    obtain ⟨im', result, total⟩ := later long (fun other member =>
      fits other (List.mem_cons_of_mem _ member)) (by omega)
    exact ⟨im', Runs.run_cons_some.mpr ⟨next, taken, result⟩, by omega⟩

/-- The root directory before the files are added. -/
def rootEntries : List Dirent :=
  [⟨ROOTINO, strncpy [46] DIRSIZ⟩, ⟨ROOTINO, strncpy [46, 46] DIRSIZ⟩]

/-- The image with an empty root directory, to which mkfs adds the files. -/
structure Rooted (im : Image) : Prop where
  dots : ∃ first, iappend (ialloc blank .dir) ROOTINO
    (Dirent.bytes ⟨ROOTINO, strncpy [46] DIRSIZ⟩) = some first ∧
    ImageOk first ∧ (first.dinodes ROOTINO).type = .dir ∧ first.freeblock ≤ FSSIZE ∧
    iappend first ROOTINO (Dirent.bytes ⟨ROOTINO, strncpy [46, 46] DIRSIZ⟩) = some im
  built : Built im rootEntries fun _ => []
  freeinode : im.freeinode = 2
  freeblock : im.freeblock = nmeta + rootHeld 2

theorem exists_rooted : ∃ im, Rooted im := by
  have built0 := built_root fun _ => []
  obtain ⟨im1, dot, count1⟩ : ∃ im1, iappend (ialloc blank .dir) ROOTINO
      (Dirent.bytes ⟨ROOTINO, strncpy [46] DIRSIZ⟩) = some im1 ∧ im1.freeblock = nmeta +
      rootHeld 1 :=
    iappend_space built0.ok (by decide) (by decide) (by decide)
  have room1 : im1.freeblock ≤ FSSIZE := by
    rw [count1]
    decide
  have built1 := built0.entry dot room1 (by decide) (strncpy_length _ _)
  have grown1 := (iappend_grown built0.ok (by decide) dot room1).2
  have typed1 : (im1.dinodes ROOTINO).type ≠ .free := by
    rw [built1.type]
    decide
  have second := iappend_space built1.ok typed1
    (p := Dirent.bytes ⟨ROOTINO, strncpy [46, 46] DIRSIZ⟩)
  rw [built1.size, count1] at second
  obtain ⟨im2, dotdot, count2⟩ := second (by decide) (by decide)
  change im2.freeblock + rootHeld 1 = nmeta + rootHeld 1 + rootHeld 2 at count2
  have room2 : im2.freeblock ≤ FSSIZE := by
    have small : nmeta + rootHeld 2 ≤ FSSIZE := by decide
    omega
  have built2 := built1.entry dotdot room2 (by decide) (strncpy_length _ _)
  have grown2 := (iappend_grown built1.ok typed1 dotdot room2).2
  exact ⟨im2, ⟨im1, dot, built1.ok, built1.type, room1, dotdot⟩, built2,
    grown2.freeinode.trans grown1.freeinode, by omega⟩

theorem Rooted.mkfs (rooted : Rooted im) (files : List Source) :
    mkfs files = (Runs.run addFile im files).map fixRoot := by
  obtain ⟨first, dot, -, -, -, dotdot⟩ := rooted.dots
  rw [Mkfs.mkfs, dot, Option.bind_some, dotdot, Option.bind_some]

/-- Files that are not too many, not too large and fit on the disk are added. -/
theorem Rooted.space {files : List Source} (rooted : Rooted im) (few : files.length < NINODES - 1)
    (legal : ∀ file ∈ files, file.name.contains 47 = false)
    (fits : ∀ file ∈ files, file.reads.flatten.length ≤ MAXFILE * BSIZE)
    (room : need files ≤ FSSIZE) :
    ∃ im', Runs.run addFile im files = some im' ∧ im'.freeblock = need files := by
  have count := rooted.freeblock
  have two := rooted.freeinode
  have long : DIRENTSIZE * (2 + files.length) ≤ MAXFILE * BSIZE := by grind
  have enough : im.freeinode + files.length ≤ NINODES := by omega
  unfold need at room ⊢
  have added := addFiles_space rooted.built enough legal long fits
  change _ + rootHeld (2 + files.length) + _ ≤ FSSIZE + rootHeld 2 → ∃ im' : Image, _ ∧
    im'.freeblock + rootHeld 2 = _ + rootHeld (2 + files.length) + _ at added
  obtain ⟨im', filled, total⟩ := added (by omega)
  exact ⟨im', filled, by omega⟩

end Files

end Xv6.Mkfs
