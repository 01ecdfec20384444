import Fsfuse.ForStd.PagedRecords
import Fsfuse.Native.ReaddirPages
import Fsfuse.Spec.DirentryTree

/-!
# Directories read by the page

A client that goes on with the offset of the last entry that a reply has as a whole is meant to
get `.`, `..` and every child exactly once and in order, and then an empty reply, as long as
the children stay as they are and no page is smaller than an entry.

The buffer is filled anew for every page, and the offset of an entry is the position behind it
there, so that the entries are records in the sense of `Records`, and the client is a `Reader`
of them. The end is compared with the lower half of the offset only, but at the end there is
nothing left to send. So a client gets it all exactly if every call gets through: the directory
can be walked over whenever the buffer is filled.
-/

namespace Fsfuse.Native.Nativefs

open Direntries ParentLinks Records

variable {ι : Type} [DecidableEq ι]

/-- What the next call of `fsfuse_readdir` meets, and the size it asks for. -/
structure Call (ι : Type) where
  fs : Nativefs ι
  listings : Listings ι
  size : Nat

/-- The reply to a client. -/
def Call.reply (call : Call ι) (fuse : FuseAddDirentry) (fuel : Nat) (de : ι) (off : Nat) :
    ExceptT Fault Option (List UInt8) :=
  Prod.snd <$> fsfuseReaddirPage fuse fuel call.fs de call.listings call.size off

/-- A client that has made so many calls. -/
def readdirRun (fuse : FuseAddDirentry) (read : List UInt8 → Option (Dirent × List UInt8))
    (fuel : Nat) (de : ι) (calls : Nat → Call ι) : Nat → ExceptT Fault Option (Reader Dirent)
  | 0 => return .start
  | n + 1 => do
    let client ← readdirRun fuse read fuel de calls n
    let reply ← (calls n).reply fuse fuel de client.position
    return client.turn ⟨fuse.write, read⟩ Dirent.off reply

/-- The directory has the same children in every call, and what is to be listed is the same. -/
structure Unchanged (calls : Nat → Call ι) (de : ι) (cs : List ι) (entries : Dirbuf) : Prop where
  rooted : ∀ n, (calls n).fs.des.Rooted
  chain : ∀ n, Chain (calls n).fs.des.nextOf ((calls n).fs.des.firstOf de) cs
  entries : ∀ n, listed (calls n).fs.des de cs = entries

/-- The size of all entries. -/
def sizeOf (fuse : FuseAddDirentry) (entries : Dirbuf) : Nat :=
  (entries.map fun entry => fuse.size entry.1).sum

/-- A client gets everything, once and in order, in pages that are not empty, and then empty
    pages. -/
def Complete (fuse : FuseAddDirentry) (read : List UInt8 → Option (Dirent × List UInt8)) (de : ι)
    (calls : Nat → Call ι) (entries : Dirbuf) : Prop :=
  ∃ n client bound, ∀ fuel ≥ bound,
    (readdirRun fuse read fuel de calls n).run = some (.ok client) ∧
      client.got.map (fun d => (d.name, d.ino, d.type)) = entries ∧
      (∀ i < n, ∃ before reply,
        (readdirRun fuse read fuel de calls i).run = some (.ok before) ∧
          ((calls i).reply fuse fuel de before.position).run = some (.ok reply) ∧ reply ≠ []) ∧
      ∀ i ≥ n, ((calls i).reply fuse fuel de client.position).run = some (.ok [])

/-- What is written of an entry has the size given for its name, and is read back. -/
structure Writes (fuse : FuseAddDirentry) (read : List UInt8 → Option (Dirent × List UInt8))
    (d : Dirent) : Prop extends Format.Delimits ⟨fuse.write, read⟩ d where
  length_write : (fuse.write d).length = fuse.size d.name

/-! ### The buffer -/

section Buffer

variable {fuse : FuseAddDirentry} {entries : Dirbuf}

/-- The entries with their offsets, from a size of the buffer on. -/
def dirents (fuse : FuseAddDirentry) : Nat → Dirbuf → List Dirent
  | _, [] => []
  | size, (name, ino, type) :: entries =>
    ⟨name, ino, type, size + fuse.size name⟩ :: dirents fuse (size + fuse.size name) entries

/-- The entries are those that have been added. -/
theorem map_dirents (size : Nat) (entries : Dirbuf) :
    (dirents fuse size entries).map (fun d => (d.name, d.ino, d.type)) = entries := by
  induction entries generalizing size with
  | nil => rfl
  | cons entry entries ih => rw [dirents, List.map_cons, ih]

/-- Their offsets do not go beyond the end. -/
theorem off_le_of_mem_dirents {size : Nat} {d : Dirent} (hd : d ∈ dirents fuse size entries) :
    (d.name, d.ino, d.type) ∈ entries ∧ d.off ≤ size + sizeOf fuse entries := by
  induction entries generalizing size with
  | nil => cases hd
  | cons entry entries ih =>
    obtain rfl | hd := List.mem_cons.mp hd
    · refine ⟨by simp, ?_⟩
      simp only [sizeOf, List.map_cons, List.sum_cons]
      omega
    · obtain ⟨hmem, hle⟩ := ih hd
      refine ⟨List.mem_cons_of_mem _ hmem, ?_⟩
      simp only [sizeOf, List.map_cons, List.sum_cons] at hle ⊢
      omega

/-- Filling the buffer writes them one after the other. -/
theorem foldl_dirbufWrite (read : List UInt8 → Option (Dirent × List UInt8)) {buf : List UInt8}
    (hlength : ∀ d ∈ dirents fuse buf.length entries, (fuse.write d).length = fuse.size d.name) :
    entries.foldl (dirbufWrite fuse) buf =
      buf ++ Format.writeAll ⟨fuse.write, read⟩ (dirents fuse buf.length entries) := by
  induction entries generalizing buf with
  | nil => simp [dirents]
  | cons entry entries ih =>
    obtain ⟨name, ino, type⟩ := entry
    obtain ⟨hentry, hlength⟩ := List.forall_mem_cons.mp hlength
    have hsize : (dirbufWrite fuse buf (name, ino, type)).length = buf.length + fuse.size name := by
      rw [dirbufWrite, List.length_append, hentry]
    rw [List.foldl_cons, ih (by rwa [hsize]), hsize, dirbufWrite, List.append_assoc]
    rfl

/-- The offset of an entry is the position behind it. -/
theorem off_of_dirents (read : List UInt8 → Option (Dirent × List UInt8)) {size : Nat}
    (hlength : ∀ d ∈ dirents fuse size entries, (fuse.write d).length = fuse.size d.name)
    {i : Nat} {d : Dirent} (hd : (dirents fuse size entries)[i]? = some d) :
    d.off = size +
      (Format.writeAll ⟨fuse.write, read⟩ ((dirents fuse size entries).take (i + 1))).length := by
  induction entries generalizing size i with
  | nil => cases hd
  | cons entry entries ih =>
    obtain ⟨name, ino, type⟩ := entry
    obtain ⟨hentry, hlength⟩ := List.forall_mem_cons.mp hlength
    rw [dirents, List.take_succ_cons, writeAll_cons, List.length_append, hentry]
    cases i with
    | zero =>
      cases hd
      rfl
    | succ i =>
      rw [ih hlength hd, Nat.add_assoc]

/-- Up to the end of the buffer, the reply is the part of it that has been asked for. -/
theorem readdirReply_eq {buf : List UInt8} {size off : Nat} (hoff : off ≤ buf.length) :
    readdirReply buf size off = .ok ((buf.drop off).take size) := by
  rw [readdirReply, if_pos hoff]
  split
  · rw [← List.take_take, List.take_of_length_le]
    rw [List.length_take, List.length_drop]
    exact Nat.min_le_right _ _
  · -- the lower half of an offset within the buffer is within the buffer too
    rename_i hlow
    have hle := Nat.mod_le off (2 ^ 32)
    rw [List.drop_of_length_le (by omega), List.take_nil]

end Buffer

/-! ### The calls -/

section Run

variable {fuse : FuseAddDirentry} {read : List UInt8 → Option (Dirent × List UInt8)} {fuel : Nat}
  {calls : Nat → Call ι} {de : ι} {cs : List ι} {entries : Dirbuf}

/-- A call replies exactly if the directory can be walked over. -/
theorem Unchanged.reply_iff (h : Unchanged calls de cs entries) (hfuel : cs.length ≤ fuel)
    {n off : Nat} {reply : List UInt8} :
    ((calls n).reply fuse fuel de off).run = some (.ok reply) ↔
      (calls n).fs.des.Walkable de ∧
        readdirReply (entries.foldl (dirbufWrite fuse) []) (calls n).size off = .ok reply := by
  rw [Call.reply, map_eq_pure_bind, run_bind_eq_ok_iff, fsfuseReaddirPage]
  constructor
  -- the page is the reply to what the loop has added to the buffer
  · rintro ⟨⟨fs, reply'⟩, hpage, hrun⟩
    obtain ⟨s, hreaddir, hpage⟩ := run_bind_eq_ok_iff.mp hpage
    obtain ⟨hwalk, rfl⟩ := (fsfuseReaddir_iff (h.rooted n) (h.chain n) hfuel _).mp hreaddir
    obtain ⟨reply'', hreply, hpage⟩ := run_done_bind_eq_ok_iff.mp hpage
    rw [run_pure_eq_ok_iff] at hpage hrun
    cases hpage
    cases hrun
    rw [h.entries n] at hreply
    exact ⟨hwalk, hreply⟩
  · rintro ⟨hwalk, hreply⟩
    refine ⟨((calls n).fs, reply), run_bind_eq_ok_iff.mpr ?_, rfl⟩
    refine ⟨_, (fsfuseReaddir_iff (h.rooted n) (h.chain n) hfuel _).mpr ⟨hwalk, rfl⟩, ?_⟩
    refine run_done_bind_eq_ok_iff.mpr ⟨reply, ?_, rfl⟩
    rw [h.entries n, hreply]

/-- Within the buffer a reply is a slice of the entries. -/
theorem reply_eq (h : Unchanged calls de cs entries) (hfuel : cs.length ≤ fuel) {n : Nat}
    (hwalk : (calls n).fs.des.Walkable de)
    (hwrites : ∀ d ∈ dirents fuse 0 entries, Writes fuse read d) {off : Nat}
    (hoff : off ≤ (Format.writeAll ⟨fuse.write, read⟩ (dirents fuse 0 entries)).length) :
    ((calls n).reply fuse fuel de off).run =
      some (.ok (slice ⟨fuse.write, read⟩ (dirents fuse 0 entries) off (calls n).size)) := by
  have hbuf : entries.foldl (dirbufWrite fuse) [] = _ :=
    foldl_dirbufWrite read fun d hd => (hwrites d hd).length_write
  rw [List.nil_append] at hbuf
  rw [h.reply_iff hfuel, hbuf, List.length_nil, readdirReply_eq hoff]
  exact ⟨hwalk, rfl⟩

/-- A client is a reader of the entries. -/
theorem readdirRun_eq (h : Unchanged calls de cs entries) (hfuel : cs.length ≤ fuel)
    (hwalk : ∀ n, (calls n).fs.des.Walkable de)
    (hwrites : ∀ d ∈ dirents fuse 0 entries, Writes fuse read d) {n : Nat}
    (hat : ∀ i ≤ n, ∃ k, (Reader.run ⟨fuse.write, read⟩ Dirent.off (dirents fuse 0 entries)
      (fun i => (calls i).size) i).At ⟨fuse.write, read⟩ (dirents fuse 0 entries) k) :
    (readdirRun fuse read fuel de calls n).run =
      some (.ok (Reader.run ⟨fuse.write, read⟩ Dirent.off (dirents fuse 0 entries)
        (fun i => (calls i).size) n)) := by
  induction n with
  | zero => rfl
  | succ n ih =>
    -- before each call the reader stands at some record
    obtain ⟨k, hk⟩ := hat n (Nat.le_succ n)
    have hreply := reply_eq h hfuel (hwalk n) hwrites
      (hk.position.trans_le (length_writeAll_take_le k))
    rw [readdirRun, run_bind_eq_ok_iff]
    refine ⟨_, ih fun i hi => hat i (Nat.le_succ_of_le hi), ?_⟩
    rw [run_bind_eq_ok_iff]
    exact ⟨_, hreply, rfl⟩

/-- A client gets everything exactly if the directory can be walked over in every call. -/
theorem readdirRun_complete_iff (fuse : FuseAddDirentry)
    (read : List UInt8 → Option (Dirent × List UInt8)) (calls : Nat → Call ι) (de : ι)
    (cs : List ι) (entries : Dirbuf) (hsame : Unchanged calls de cs entries)
    (hwrites : ∀ entry ∈ entries, ∀ off ≤ sizeOf fuse entries,
      Writes fuse read ⟨entry.1, entry.2.1, entry.2.2, off⟩)
    (hsize : ∀ n, ∀ entry ∈ entries, fuse.size entry.1 ≤ (calls n).size) :
    Complete fuse read de calls entries ↔ ∀ n, (calls n).fs.des.Walkable de := by
  constructor
  · rintro ⟨n, client, bound, hruns⟩ i
    obtain ⟨-, -, hpages, hend⟩ := hruns (max bound cs.length) (Nat.le_max_left _ _)
    have hfuel : cs.length ≤ max bound cs.length := Nat.le_max_right _ _
    -- each call has replied, before the end or behind it
    by_cases hi : i < n
    · obtain ⟨before, reply, -, hreply, -⟩ := hpages i hi
      exact ((hsame.reply_iff hfuel).mp hreply).1
    · exact ((hsame.reply_iff hfuel).mp (hend i (by omega))).1
  · intro hwalk
    have hall : ∀ d ∈ dirents fuse 0 entries,
        Writes fuse read d ∧ ∀ n, (fuse.write d).length ≤ (calls n).size := by
      intro d hd
      obtain ⟨hmem, hle⟩ := off_le_of_mem_dirents hd
      rw [Nat.zero_add] at hle
      have hd' := hwrites _ hmem d.off hle
      exact ⟨hd', fun n => hd'.length_write.trans_le (hsize n _ hmem)⟩
    have hwrites' := fun d hd => (hall d hd).1
    have hoff : ∀ (i : Nat) (d : Dirent), (dirents fuse 0 entries)[i]? = some d →
        d.off = (Format.writeAll ⟨fuse.write, read⟩
          ((dirents fuse 0 entries).take (i + 1))).length := by
      intro i d hd
      rw [off_of_dirents read (fun d hd => (hwrites' d hd).length_write) hd, Nat.zero_add]
    obtain ⟨n, hend, hats, hpages⟩ := exists_run_at Dirent.off (fun i => (calls i).size)
      (fun d hd => (hwrites' d hd).toDelimits) hoff fun n d hd => (hall d hd).2 n
    refine ⟨n, _, cs.length, fun fuel hfuel => ⟨readdirRun_eq hsame hfuel hwalk hwrites' hats, ?_,
      fun i hi => ?_, fun i _ => ?_⟩⟩
    · rw [hend.got, List.take_length, map_dirents]
    · obtain ⟨k, hk⟩ := hats i hi.le
      exact ⟨_, _, readdirRun_eq hsame hfuel hwalk hwrites' fun j hj => hats j (hj.trans hi.le),
        reply_eq hsame hfuel (hwalk i) hwrites'
          (hk.position.trans_le (length_writeAll_take_le k)), hpages i hi⟩
    · rw [reply_eq hsame hfuel (hwalk i) hwrites'
        (hend.position.trans_le (length_writeAll_take_le _)), hend.slice_eq_nil]

end Run

/-! ### The entries of the kernel -/

/-- A number in so many bytes, the lowest first. -/
def littleEndian : Nat → Nat → List UInt8
  | 0, _ => []
  | width + 1, n => UInt8.ofNat n :: littleEndian width (n / 256)

def ofLittleEndian : List UInt8 → Nat
  | [] => 0
  | b :: bs => b.toNat + 256 * ofLittleEndian bs

@[simp] theorem length_littleEndian (width n : Nat) : (littleEndian width n).length = width := by
  induction width generalizing n with
  | zero => rfl
  | succ width ih => rw [littleEndian, List.length_cons, ih]

/-- A number that fits is read back from its bytes. -/
theorem ofLittleEndian_littleEndian {width n : Nat} (hn : n < 256 ^ width) :
    ofLittleEndian (littleEndian width n) = n := by
  induction width generalizing n with
  | zero =>
    rw [Nat.pow_zero] at hn
    rw [littleEndian, ofLittleEndian]
    omega
  | succ width ih =>
    rw [Nat.pow_succ] at hn
    rw [littleEndian, ofLittleEndian, ih (Nat.div_lt_of_lt_mul (by omega)), UInt8.toNat_ofNat']
    omega

/-- The size of an entry: the name behind 24 bytes, up to a multiple of 8. -/
def direntSize (nameLength : Nat) : Nat := (24 + nameLength + 7) / 8 * 8

/-- The type in the bits of a mode. -/
def typeBits : ListingType → Nat
  | .file => 8
  | .directory => 4

/-- What is before the name. -/
def direntHeader (d : Dirent) : List UInt8 :=
  littleEndian 8 d.ino ++ littleEndian 8 d.off ++ littleEndian 4 d.name.length ++
    littleEndian 4 (typeBits d.type)

/-- `fuse_add_direntry` as it is. -/
def fuseAddDirentry : FuseAddDirentry where
  size name := direntSize name.length
  write d :=
    direntHeader d ++ d.name ++ List.replicate (direntSize d.name.length - 24 - d.name.length) 0

/-- How the kernel reads an entry: it stops at one that is cut off. -/
def readDirent (bs : List UInt8) : Option (Dirent × List UInt8) :=
  let nameLength := ofLittleEndian ((bs.drop 16).take 4)
  if bs.length < 24 ∨ bs.length < direntSize nameLength then none
  else
    some (
      { name := (bs.drop 24).take nameLength
        ino := ofLittleEndian (bs.take 8)
        type := if ofLittleEndian ((bs.drop 20).take 4) = 4 then .directory else .file
        off := ofLittleEndian ((bs.drop 8).take 8) },
      bs.drop (direntSize nameLength))

/-- What is read of the header, whatever is behind it. -/
theorem readDirent_header {d : Dirent} (hname : d.name.length < 2 ^ 32) (hino : d.ino < 2 ^ 64)
    (hoff : d.off < 2 ^ 64) (bs : List UInt8) :
    readDirent (direntHeader d ++ bs) =
      if 24 + bs.length < direntSize d.name.length then none
      else
        some ({ d with name := bs.take d.name.length },
          (direntHeader d ++ bs).drop (direntSize d.name.length)) := by
  -- each field of the header is read back from its bytes
  have hnameLength : ofLittleEndian (((direntHeader d ++ bs).drop 16).take 4) = d.name.length := by
    have hbytes : ((direntHeader d ++ bs).drop 16).take 4 = littleEndian 4 d.name.length := by
      simp [direntHeader, List.drop_append, List.drop_eq_nil_of_le]
    rw [hbytes, ofLittleEndian_littleEndian (by omega)]
  have hino' : ofLittleEndian ((direntHeader d ++ bs).take 8) = d.ino := by
    have hbytes : (direntHeader d ++ bs).take 8 = littleEndian 8 d.ino := by
      simp [direntHeader]
    rw [hbytes, ofLittleEndian_littleEndian (by omega)]
  have hoff' : ofLittleEndian (((direntHeader d ++ bs).drop 8).take 8) = d.off := by
    have hbytes : ((direntHeader d ++ bs).drop 8).take 8 = littleEndian 8 d.off := by
      simp [direntHeader]
    rw [hbytes, ofLittleEndian_littleEndian (by omega)]
  have htype : (if ofLittleEndian (((direntHeader d ++ bs).drop 20).take 4) = 4 then
      ListingType.directory else .file) = d.type := by
    have hbytes : ((direntHeader d ++ bs).drop 20).take 4 = littleEndian 4 (typeBits d.type) := by
      simp [direntHeader, List.drop_append, List.drop_eq_nil_of_le]
    rw [hbytes]
    cases d.type <;> rfl
  have hrest : (direntHeader d ++ bs).drop 24 = bs := by
    simp [direntHeader, List.drop_append, List.drop_eq_nil_of_le]
  have hlength : (direntHeader d ++ bs).length = 24 + bs.length := by
    simp [direntHeader]
    omega
  rw [readDirent, hnameLength, hino', hoff', htype, hrest, hlength]
  simp only [Nat.not_lt.mpr (Nat.le_add_right 24 bs.length), false_or]

/-- Within the ranges of its types it writes what is read back. -/
theorem writes_fuseAddDirentry {d : Dirent} (hname : d.name.length < 2 ^ 32)
    (hino : d.ino < 2 ^ 64) (hoff : d.off < 2 ^ 64) : Writes fuseAddDirentry readDirent d := by
  -- the header, the name, and the padding
  have hheader : (direntHeader d).length = 24 := by
    simp [direntHeader]
  have hlength : (fuseAddDirentry.write d).length = direntSize d.name.length := by
    simp only [fuseAddDirentry, List.length_append, List.length_replicate, hheader, direntSize]
    omega
  have hwrite : fuseAddDirentry.write d = direntHeader d ++ (d.name ++
      List.replicate (direntSize d.name.length - 24 - d.name.length) 0) := by
    rw [← List.append_assoc]
    rfl
  have hsize : 24 + d.name.length ≤ direntSize d.name.length := by
    simp only [direntSize]
    omega
  refine { ne_nil := fun hnil => ?_, read_write := fun rest => ?_, read_take := fun n hn => ?_
           length_write := hlength }
  -- a record is not empty
  · rw [← List.length_eq_zero_iff, hlength] at hnil
    omega
  -- written in full it is read back, and what follows it is left
  · show readDirent (fuseAddDirentry.write d ++ rest) = _
    have hdrop : (fuseAddDirentry.write d ++ rest).drop (direntSize d.name.length) = rest := by
      rw [← hlength, List.drop_left]
    rw [hwrite, List.append_assoc] at hdrop ⊢
    rw [readDirent_header hname hino hoff, hdrop, if_neg]
    · rw [List.append_assoc, List.take_left]
    · simp only [List.length_append, List.length_replicate]
      omega
  · replace hn : n < direntSize d.name.length := hn.trans_eq hlength
    show readDirent ((fuseAddDirentry.write d).take n) = none
    -- cut off in the header, or behind it, it is not read
    by_cases hshort : n < 24
    · rw [readDirent, if_pos]
      left
      rw [List.length_take]
      omega
    · rw [hwrite, List.take_append, List.take_of_length_le (by omega),
        readDirent_header hname hino hoff, if_pos]
      rw [List.length_take]
      omega

/-- A directory of which every page has 40 bytes. -/
def threeLevelsCall : Call (Fin 4) where
  fs := threeLevels 2
  listings _ _ := ⟨0, []⟩
  size := 40

/-- The directory with one file in it, two levels below the root. -/
theorem complete_threeLevels :
    Complete fuseAddDirentry readDirent 2 (fun _ => threeLevelsCall)
      [(ascii ".", 3, .directory), (ascii "..", 2, .directory), (ascii "f", 4, .file)] := by
  have hsame : Unchanged (fun _ => threeLevelsCall) 2 [3]
      [(ascii ".", 3, .directory), (ascii "..", 2, .directory), (ascii "f", 4, .file)] :=
    ⟨fun _ => rooted_threeLevels 2, fun _ => .cons .nil, fun _ => rfl⟩
  have hentry : ∀ entry ∈ [(ascii ".", 3, ListingType.directory), (ascii "..", 2, .directory),
      (ascii "f", 4, .file)], entry.1.length < 2 ^ 32 ∧ entry.2.1 < 2 ^ 64 ∧
        fuseAddDirentry.size entry.1 ≤ 40 := by
    decide
  have hsize : sizeOf fuseAddDirentry [(ascii ".", 3, ListingType.directory),
      (ascii "..", 2, .directory), (ascii "f", 4, .file)] < 2 ^ 64 := by
    decide
  -- the directory has been looked up, and its parent and its child are counted
  refine (readdirRun_complete_iff fuseAddDirentry readDirent (fun _ => threeLevelsCall) 2 [3] _
    hsame (fun entry hmem off hoff => writes_fuseAddDirentry (hentry entry hmem).1
      (hentry entry hmem).2.1 (hoff.trans_lt hsize))
    fun _ entry hmem => (hentry entry hmem).2.2).mpr fun _ => ⟨rfl, fun p hp => ?_, ?_⟩
  · obtain rfl : p = 1 := Option.some.inj hp.symm
    exact ⟨2, rfl, by decide, by decide⟩
  · intro cs hcs c hc
    obtain rfl := hcs.unique (.cons .nil : Chain (threeLevels 2).des.nextOf (some 3) [3])
    obtain rfl := List.mem_singleton.mp hc
    exact ⟨2, rfl, by decide, by decide⟩

/-- The directory that is directly below the root has a parent that cannot be copied. -/
theorem not_complete_threeLevels :
    (∀ fuel, (threeLevelsCall.reply fuseAddDirentry fuel 1 0).run =
        some (.error .nullPointer)) ∧
      ∀ entries, ¬ Complete fuseAddDirentry readDirent 1 (fun _ => threeLevelsCall) entries := by
  have hreply : ∀ fuel off, (threeLevelsCall.reply fuseAddDirentry fuel 1 off).run =
      some (.error .nullPointer) := fun _ _ => rfl
  refine ⟨fun fuel => hreply fuel 0, ?_⟩
  rintro entries ⟨n, client, bound, hruns⟩
  obtain ⟨-, -, -, hend⟩ := hruns bound (Nat.le_refl bound)
  have hrun := hend n (Nat.le_refl n)
  rw [hreply] at hrun
  cases hrun

end Fsfuse.Native.Nativefs
