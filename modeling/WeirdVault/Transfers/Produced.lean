import WeirdVault.Transfers.Archive

/-!
# What the generator produces

The chunks of an upload are the archive of its items exactly if the items fit into the fields of the
format; a stream that does not deliver what its file declares ends the upload with an error.
-/

namespace WeirdVault.Transfers.Tar

open WeirdVault.Framework Program Ustar

def File.contents (file : File) : Bytes := file.stream.flatten

/-- The stream delivers as much as the file declares. -/
structure File.Honest (file : File) : Prop where
  whole : file.failure = none
  size : file.contents.length = file.size

def File.seconds (file : File) : Int := file.lastModified / 1000

/-- Nobody cancels the upload. -/
def uncancelled : Nat → Bool := fun _ => false

def itemHead (item : UploadItem) : List Bytes :=
  let name := normalize item.path
  let size := item.file.size
  match longNameEntry name with
  | some long => [long,header (truncate name) size item.file.lastModified (utf16 "0")]
  | none => [header name size item.file.lastModified (utf16 "0")]

def itemPadding (item : UploadItem) : List Bytes :=
  if padding item.file.size > 0 then [List.replicate (padding item.file.size) 0] else []

def itemChunks (item : UploadItem) : List Bytes :=
  itemHead item ++ item.file.stream ++ itemPadding item

section Run

variable {cs : List Bytes} {looks : Nat}

private theorem run_yields (chunk : Bytes) :
    (yields chunk).run (consumer uncancelled) (cs,looks) = ((cs ++ [chunk],looks),.ok ()) := rfl

private theorem run_throwIfAborted :
    throwIfAborted.run (consumer uncancelled) (cs,looks) = ((cs,looks+1),.ok ()) := rfl

private theorem run_copy (failure : Option JsString) (stream : List Bytes) (written : Nat) :
    (copy failure stream written).run (consumer uncancelled) (cs,looks) =
      ((cs ++ stream,looks + stream.length),match failure with
        | none => .ok (written + stream.flatten.length)
        | some message => .error message) := by
  induction stream generalizing cs looks written with
  | nil =>
    cases failure with
    | none => simp [copy]
    | some message => simp [copy]
  | cons value rest ih =>
    simp only [copy,bind_eq,run_bind,run_throwIfAborted,run_yields,ih]
    have hlooks : looks+1+rest.length = looks+(value :: rest).length := by
      rw [List.length_cons]
      omega
    have hwritten : written+value.length+rest.flatten.length =
        written+(value :: rest).flatten.length := by
      rw [List.flatten_cons,List.length_append]
      omega
    rw [List.append_assoc,List.singleton_append,hlooks,hwritten]

private def itemEnd (item : UploadItem) (written : Nat) : TarProg Unit := do
  if written ≠ item.file.size then throw (changedWhileRead item written)
  if padding item.file.size > 0 then yields (List.replicate (padding item.file.size) 0)

private theorem run_itemEnd (item : UploadItem) :
    (itemEnd item item.file.contents.length).run (consumer uncancelled)
        (cs ++ (itemHead item ++ item.file.stream),looks) =
      if item.file.contents.length = item.file.size then ((cs ++ itemChunks item,looks),.ok ())
      else ((cs ++ (itemHead item ++ item.file.stream),looks),
        .error (changedWhileRead item item.file.contents.length)) := by
  by_cases hsize : item.file.contents.length = item.file.size
  · by_cases hpad : padding item.file.size > 0
    · simp only [itemEnd,hsize,hpad,ne_eq,not_true_eq_false,if_false,if_true,run_yields,itemChunks,
        itemPadding,List.append_assoc]
    · simp only [itemEnd,hsize,hpad,ne_eq,not_true_eq_false,if_false,if_true,itemChunks,
        itemPadding,List.append_nil]
      rfl
  · simp only [itemEnd,hsize,ne_eq,not_false_eq_true,if_true,if_false]
    rfl

private theorem run_tarItem (cs : List Bytes) (looks : Nat) (item : UploadItem) : ∃ looks',
    (tarItem item).run (consumer uncancelled) (cs,looks) =
      match item.file.failure with
      | some message => ((cs ++ (itemHead item ++ item.file.stream),looks'),.error message)
      | none =>
        if item.file.contents.length = item.file.size then
          ((cs ++ itemChunks item,looks'),.ok ())
        else ((cs ++ (itemHead item ++ item.file.stream),looks'),
          .error (changedWhileRead item item.file.contents.length)) := by
  have hhead : ∃ looks', (tarItem item).run (consumer uncancelled) (cs,looks) =
      match item.file.failure with
      | some message => ((cs ++ (itemHead item ++ item.file.stream),looks'),.error message)
      | none => (itemEnd item item.file.contents.length).run (consumer uncancelled)
          (cs ++ (itemHead item ++ item.file.stream),looks') := by
    refine ⟨looks + 1 + item.file.stream.length,?_⟩
    cases hlong : longNameEntry (normalize item.path) with
    | none =>
      simp only [tarItem,hlong,bind_eq,run_bind,run_throwIfAborted,run_yields,run_copy,Nat.zero_add,
        itemHead,List.append_assoc]
      cases item.file.failure with
      | none => rfl
      | some message => rfl
    | some long =>
      simp only [tarItem,hlong,bind_eq,run_bind,run_throwIfAborted,run_yields,run_copy,Nat.zero_add,
        itemHead,List.append_assoc,List.singleton_append]
      cases item.file.failure with
      | none => rfl
      | some message => rfl
  obtain ⟨looks',hrun⟩ := hhead
  refine ⟨looks',?_⟩
  rw [hrun]
  cases item.file.failure with
  | some message => rfl
  | none => exact run_itemEnd item

private theorem run_items (cs : List Bytes) (looks : Nat) {items : List UploadItem}
    (h : ∀ item ∈ items, item.file.Honest) :
    ∃ looks', (forEach tarItem items).run (consumer uncancelled) (cs,looks) =
      ((cs ++ items.flatMap itemChunks,looks'),.ok ()) := by
  induction items generalizing cs looks with
  | nil => exact ⟨looks,by simp⟩
  | cons item items ih =>
    have hitem := h item (by simp)
    obtain ⟨looks₁,hrun⟩ := run_tarItem cs looks item
    obtain ⟨looks₂,hrest⟩ := ih (cs ++ itemChunks item) looks₁
      (fun i hi => h i (List.mem_cons_of_mem item hi))
    refine ⟨looks₂,?_⟩
    simp only [hitem.whole,hitem.size,if_true] at hrun
    rw [forEach_cons,run_bind_ok _ hrun,hrest,List.flatMap_cons,List.append_assoc]

private theorem run_items_broken (cs : List Bytes) (looks : Nat) {items : List UploadItem}
    (h : ∃ item ∈ items, ¬ item.file.Honest) :
    ∃ e, ((forEach tarItem items).run (consumer uncancelled) (cs,looks)).2 = .error e := by
  induction items generalizing cs looks with
  | nil =>
    obtain ⟨item,hmem,-⟩ := h
    cases hmem
  | cons item items ih =>
    obtain ⟨looks₁,hrun⟩ := run_tarItem cs looks item
    rw [forEach_cons,run_bind,hrun]
    cases hwhole : item.file.failure with
    | some message => exact ⟨message,rfl⟩
    | none =>
      by_cases hsize : item.file.contents.length = item.file.size
      · simp only [hsize,if_true]
        apply ih
        obtain ⟨broken,hmem,hnot⟩ := h
        rcases List.mem_cons.mp hmem with rfl | hmem
        · exact absurd ⟨hwhole,hsize⟩ hnot
        · exact ⟨broken,hmem,hnot⟩
      · simp only [hsize,if_false]
        exact ⟨_,rfl⟩

end Run

theorem buildTar_eq {items : List UploadItem} (h : ∀ item ∈ items, item.file.Honest) :
    buildTar items uncancelled =
      (items.flatMap itemChunks ++ [List.replicate (BLOCK*2) 0],.ok ()) := by
  obtain ⟨looks,hrun⟩ := run_items [] 0 h
  simp only [buildTar,tarChunks,bind_eq]
  rw [run_bind_ok _ hrun]
  rfl

theorem buildTar_broken {items : List UploadItem} (h : ∃ item ∈ items, ¬ item.file.Honest) :
    ∃ e, (buildTar items uncancelled).2 = .error e := by
  obtain ⟨e,he⟩ := run_items_broken [] 0 h
  refine ⟨e,?_⟩
  simp only [buildTar,tarChunks,bind_eq,run_bind]
  generalize (forEach tarItem items).run (consumer uncancelled) ([],0) = ended at he
  obtain ⟨st,o⟩ := ended
  obtain rfl : o = .error e := he
  rfl

/-- The item can be said in the fields of a header and a long name. -/
structure UploadItem.Fits (item : UploadItem) : Prop where
  wellFormed : isWellFormed (normalize item.path) = true
  noNul : 0 ∉ normalize item.path
  name : (TextEncoder.encode (normalize item.path)).length < 8 ^ 11
  size : item.file.size < 8 ^ 11
  epoch : 0 ≤ item.file.seconds
  seconds : item.file.seconds < 8 ^ 11

/-- UTF-8, which a string with a surrogate on its own does not have. -/
def utf8? (s : JsString) : Option Bytes :=
  if isWellFormed s then some (TextEncoder.encode s) else none

structure Lists (item : UploadItem) (e : Entry) : Prop where
  name : utf8? (normalize item.path) = some e.name
  contents : e.contents = item.file.contents
  mtime : e.mtime = item.file.seconds

def part (item : UploadItem) : Bytes := (itemChunks item).flatten

private theorem padding_lt (n : Nat) : padding n < BLOCK := by
  unfold padding BLOCK
  simp only
  split <;> omega

private theorem dvd_padded (n : Nat) : BLOCK ∣ n + padding n := by
  unfold padding BLOCK
  simp only
  split <;> omega

private theorem flatten_itemPadding (item : UploadItem) :
    (itemPadding item).flatten = List.replicate (padding item.file.size) 0 := by
  unfold itemPadding
  split
  · simp
  · have hzero : padding item.file.size = 0 := by omega
    simp [hzero]

private theorem part_eq (item : UploadItem) : part item =
    (itemHead item).flatten ++ (item.file.contents ++
      List.replicate (padding item.file.size) 0) := by
  simp only [part,itemChunks,List.flatten_append,flatten_itemPadding,File.contents,
    List.append_assoc]

private theorem encode_types : TextEncoder.encode (utf16 "0") = [48] ∧
    TextEncoder.encode (utf16 "L") = [76] := by
  decide

private theorem dvd_longNameEntry {name : JsString} {long : Bytes}
    (h : longNameEntry name = some long) : BLOCK ∣ long.length ∧ BLOCK ≤ long.length := by
  unfold longNameEntry at h
  simp only at h
  split at h
  · cases h
  · obtain rfl := Option.some.inj h
    obtain ⟨k,hk⟩ := dvd_padded (TextEncoder.encode name).length
    simp only [List.length_append,length_header,List.length_replicate]
    refine ⟨⟨k+1,?_⟩,by omega⟩
    rw [Nat.mul_add,← hk]
    omega

theorem dvd_part {item : UploadItem} (h : item.file.Honest) :
    BLOCK ∣ (part item).length ∧ BLOCK*(itemHead item).length ≤ (part item).length := by
  have hfile : BLOCK ∣ item.file.contents.length + padding item.file.size := by
    rw [h.size]
    exact dvd_padded item.file.size
  obtain ⟨k,hk⟩ := hfile
  rw [part_eq]
  cases hlong : longNameEntry (normalize item.path) with
  | none =>
    simp only [itemHead,hlong,List.flatten_cons,List.flatten_nil,List.append_nil,List.length_append,
      length_header,List.length_replicate,List.length_cons,List.length_nil,hk]
    exact ⟨⟨k+1,by rw [Nat.mul_add,Nat.mul_one,Nat.add_comm]⟩,by omega⟩
  | some long =>
    obtain ⟨⟨m,hm⟩,hle⟩ := dvd_longNameEntry hlong
    simp only [itemHead,hlong,List.flatten_cons,List.flatten_nil,List.append_nil,List.length_append,
      length_header,List.length_replicate,List.length_cons,List.length_nil,hk]
    refine ⟨⟨m+1+k,?_⟩,by omega⟩
    rw [hm,Nat.mul_add,Nat.mul_add,Nat.mul_one]

section Fitting

variable {item : UploadItem} {fuel : Nat} {longName : Option Bytes} {rest after : Bytes}
  {entries : List Entry}

private theorem members_contents (hfits : item.Fits) (hhonest : item.file.Honest) (name : JsString)
    (hname : longName.getD (fullName (header name item.file.size item.file.lastModified
      (utf16 "0"))) = TextEncoder.encode (normalize item.path))
    (hnext : members fuel none rest = some (entries,after)) :
    ∃ e, Lists item e ∧ members (fuel+1) longName
      (header name item.file.size item.file.lastModified (utf16 "0") ++
        (item.file.contents ++ (List.replicate (padding item.file.size) 0 ++ rest))) =
      some (e :: entries,after) := by
  obtain ⟨mtime,hmtime⟩ := Int.eq_ofNat_of_zero_le hfits.epoch
  have hseconds : mtime < 8 ^ 11 := by
    have hlt := hfits.seconds
    rw [hmtime] at hlt
    exact_mod_cast hlt
  have hheader := header?_header name item.file.size item.file.lastModified (utf16 "0") hfits.size
    hmtime hseconds encode_types.1
  refine ⟨⟨TextEncoder.encode (normalize item.path),item.file.contents,mtime⟩,⟨?_,rfl,hmtime.symm⟩,?_⟩
  · simp only [utf8?,hfits.wellFormed,if_true]
  · have hpad : (List.replicate (padding item.file.size) (0 : UInt8)).length < blockSize := by
      rw [List.length_replicate]
      exact padding_lt item.file.size
    have hblocks : blockSize ∣ item.file.contents.length +
        (List.replicate (padding item.file.size) (0 : UInt8)).length := by
      rw [List.length_replicate,hhonest.size]
      exact dvd_padded item.file.size
    rw [members_file (length_header _ _ _ _) (isZeroBlock_header _ _ _ _) hheader hhonest.size hpad
      hblocks rfl hnext,hname]

private theorem members_longNameEntry {name : JsString} {long : Bytes}
    {read : List Entry × List UInt8} (hlong : longNameEntry name = some long)
    (hnul : 0 ∉ TextEncoder.encode name) (hlen : (TextEncoder.encode name).length < 8 ^ 11)
    (hnext : members fuel (some (TextEncoder.encode name)) rest = some read) :
    members (fuel+1) none (long ++ rest) = some read := by
  unfold longNameEntry at hlong
  simp only at hlong
  split at hlong
  · cases hlong
  · obtain rfl := Option.some.inj hlong
    have hstart : (0 : Int) / 1000 = (0 : Nat) := by decide
    have hheader := header?_header (utf16 "././@LongLink") (TextEncoder.encode name).length 0
      (utf16 "L") hlen hstart (Nat.pow_pos (by omega)) encode_types.2
    have hpad : (List.replicate (padding (TextEncoder.encode name).length) (0 : UInt8)).length <
        blockSize := by
      rw [List.length_replicate]
      exact padding_lt _
    have hblocks : blockSize ∣ (TextEncoder.encode name).length +
        (List.replicate (padding (TextEncoder.encode name).length) (0 : UInt8)).length := by
      rw [List.length_replicate]
      exact dvd_padded _
    have hcstring : cstring (TextEncoder.encode name) = TextEncoder.encode name := by
      simpa using cstring_append hnul 0
    rw [List.append_assoc,List.append_assoc,members_long (length_header _ _ _ _)
      (isZeroBlock_header _ _ _ _) hheader rfl hpad hblocks rfl,hcstring]
    exact hnext

private theorem members_part (hfits : item.Fits) (hhonest : item.file.Honest)
    (hnext : members fuel none rest = some (entries,after)) :
    ∃ e, Lists item e ∧ members (fuel+(itemHead item).length) none (part item ++ rest) =
      some (e :: entries,after) := by
  have hnul : 0 ∉ TextEncoder.encode (normalize item.path) := by
    rw [TextEncoder.zero_mem_encode]
    exact hfits.noNul
  rw [part_eq]
  cases hlong : longNameEntry (normalize item.path) with
  | none =>
    have hshort : (TextEncoder.encode (normalize item.path)).length ≤ 100 := by
      unfold longNameEntry at hlong
      simp only at hlong
      split at hlong
      · assumption
      · cases hlong
    have hname : (none : Option Bytes).getD (fullName (header (normalize item.path)
        item.file.size item.file.lastModified (utf16 "0"))) =
        TextEncoder.encode (normalize item.path) := by
      rw [Option.getD_none,fullName_header,List.take_of_length_le hshort,cstring_append hnul]
    obtain ⟨e,hlists,hread⟩ := members_contents hfits hhonest _ hname hnext
    refine ⟨e,hlists,?_⟩
    simp only [itemHead,hlong,List.flatten_cons,List.flatten_nil,List.append_nil,List.length_cons,
      List.length_nil,List.append_assoc]
    exact hread
  | some long =>
    have hcontents : ∃ e, Lists item e ∧ members (fuel+1)
        (some (TextEncoder.encode (normalize item.path)))
        (header (truncate (normalize item.path)) item.file.size item.file.lastModified
          (utf16 "0") ++ (item.file.contents ++
            (List.replicate (padding item.file.size) 0 ++ rest))) =
        some (e :: entries,after) := members_contents hfits hhonest _ rfl hnext
    obtain ⟨e,hlists,hread⟩ := hcontents
    refine ⟨e,hlists,?_⟩
    simp only [itemHead,hlong,List.flatten_cons,List.flatten_nil,List.append_nil,List.length_cons,
      List.length_nil,List.append_assoc]
    exact members_longNameEntry hlong hnul hfits.name hread

end Fitting

def archive (items : List UploadItem) : Bytes :=
  (items.map part).flatten ++ List.replicate (BLOCK*2) 0

private theorem members_archive {items : List UploadItem} (hfits : ∀ item ∈ items, item.Fits)
    (hhonest : ∀ item ∈ items, item.file.Honest) {fuel : Nat}
    (hfuel : (archive items).length < BLOCK*fuel) :
    ∃ entries, members fuel none (archive items) = some (entries,[]) ∧
      List.Forall₂ Lists items entries := by
  induction items generalizing fuel with
  | nil =>
    cases fuel with
    | zero => omega
    | succ fuel => exact ⟨[],members_end fuel none,.nil⟩
  | cons item items ih =>
    have hsplit : archive (item :: items) = part item ++ archive items := by
      simp only [archive,List.map_cons,List.flatten_cons,List.append_assoc]
    have hlen := (dvd_part (hhonest item (by simp))).2
    have hpart : BLOCK*(itemHead item).length ≤ BLOCK*fuel := by
      rw [hsplit,List.length_append] at hfuel
      omega
    have hheads : (itemHead item).length ≤ fuel :=
      Nat.le_of_mul_le_mul_left hpart (by decide)
    have hleft : (archive items).length < BLOCK*(fuel - (itemHead item).length) := by
      rw [hsplit,List.length_append] at hfuel
      rw [Nat.mul_sub]
      omega
    obtain ⟨entries,hread,hall⟩ := ih (fun i hi => hfits i (List.mem_cons_of_mem item hi))
      (fun i hi => hhonest i (List.mem_cons_of_mem item hi)) hleft
    obtain ⟨e,hlists,hmembers⟩ := members_part (hfits item (by simp)) (hhonest item (by simp)) hread
    rw [Nat.sub_add_cancel hheads] at hmembers
    exact ⟨e :: entries,by rw [hsplit,hmembers],.cons hlists hall⟩

/-- The chunks are an archive: a reader lists the items in order and ends, and every item fills its
blocks. The reader checks the sum of every header. -/
structure Written (items : List UploadItem) (chunks : List Bytes) : Prop where
  padded : ∃ parts : List Bytes, chunks.flatten = parts.flatten ++ List.replicate (BLOCK*2) 0 ∧
    parts.length = items.length ∧ ∀ p ∈ parts, BLOCK ∣ p.length
  listed : ∃ entries, Ustar.read chunks.flatten = some (entries,[]) ∧
    List.Forall₂ Lists items entries

/-- Files that deliver what they declare become an archive; any other ends in an error. -/
structure Faithful (items : List UploadItem) : Prop where
  archive : (∀ item ∈ items, item.file.Honest) →
    (buildTar items uncancelled).2 = .ok () ∧ Written items (buildTar items uncancelled).1
  guarded : (∃ item ∈ items, ¬ item.file.Honest) →
    ∃ e, (buildTar items uncancelled).2 = .error e

private theorem flatten_chunks (items : List UploadItem) :
    (items.flatMap itemChunks ++ [List.replicate (BLOCK*2) 0]).flatten = archive items := by
  have hparts : (items.flatMap itemChunks).flatten = (items.map part).flatten := by
    induction items with
    | nil => rfl
    | cons item items ih =>
      rw [List.flatMap_cons,List.flatten_append,ih,List.map_cons,List.flatten_cons,part]
  rw [List.flatten_append,hparts,archive,List.flatten_cons,List.flatten_nil,List.append_nil]

private theorem written_of_fits {items : List UploadItem} (hfits : ∀ item ∈ items, item.Fits)
    (hhonest : ∀ item ∈ items, item.file.Honest) :
    Written items (items.flatMap itemChunks ++ [List.replicate (BLOCK*2) 0]) := by
  constructor
  · refine ⟨items.map part,flatten_chunks items,List.length_map _,?_⟩
    intro p hp
    obtain ⟨item,hitem,rfl⟩ := List.mem_map.mp hp
    exact (dvd_part (hhonest item hitem)).1
  · rw [flatten_chunks,Ustar.read]
    apply members_archive hfits hhonest
    unfold BLOCK blockSize
    omega

theorem fits_of_written {items : List UploadItem} {chunks : List Bytes}
    (h : Written items chunks) (hhonest : ∀ item ∈ items, item.file.Honest) :
    ∀ item ∈ items, item.Fits := by
  obtain ⟨entries,hread,hall⟩ := h.listed
  have hsay := sayable_of_read hread
  intro item hitem
  obtain ⟨e,he,hlists⟩ : ∃ e ∈ entries, Lists item e := by
    clear hread hhonest h
    induction hall with
    | nil => cases hitem
    | cons hlists _ ih =>
      rcases List.mem_cons.mp hitem with rfl | hitem
      · exact ⟨_,by simp,hlists⟩
      · obtain ⟨e,he,hlists⟩ := ih (fun e he => hsay e (List.mem_cons_of_mem _ he)) hitem
        exact ⟨e,List.mem_cons_of_mem _ he,hlists⟩
  have hsayable := hsay e he
  have hname := hlists.name
  have hmtime := hlists.mtime
  have hlt := hsayable.mtime
  have hsize : item.file.size < 8 ^ 11 := by
    rw [← (hhonest item hitem).size,← hlists.contents]
    exact hsayable.contents
  unfold utf8? at hname
  split at hname
  · rename_i hwf
    have hbytes := Option.some.inj hname
    refine ⟨hwf,?_,by rw [hbytes]; exact hsayable.name,hsize,by omega,?_⟩
    · rw [← TextEncoder.zero_mem_encode,hbytes]
      exact hsayable.noNul
    · rw [← hmtime]
      exact_mod_cast hlt
  · cases hname

/-- Where every stream delivers what its file declares, the chunks are the archive of the items
exactly if each of them fits: a path that is text without NUL, and a length, a size and a time of at
most eleven octal digits. -/
theorem faithful_iff (items : List UploadItem) : Faithful items ↔
    ((∀ item ∈ items, item.file.Honest) → ∀ item ∈ items, item.Fits) := by
  constructor
  · intro h hhonest
    exact fits_of_written (h.archive hhonest).2 hhonest
  · intro hfits
    constructor
    · intro hhonest
      rw [buildTar_eq hhonest]
      exact ⟨rfl,written_of_fits (hfits hhonest) hhonest⟩
    · exact buildTar_broken

def oldFile : UploadItem := ⟨utf16 "a",⟨0,-1,[],none⟩⟩

def zerosFile (n : Nat) : UploadItem := ⟨utf16 "a",⟨n,0,[List.replicate n 0],none⟩⟩

private theorem honest_zerosFile (n : Nat) : ∀ item ∈ [zerosFile n], item.file.Honest := by
  intro item hitem
  obtain rfl := List.mem_singleton.mp hitem
  exact ⟨rfl,by simp [zerosFile,File.contents]⟩

/-- A time before 1970 makes an archive that no reader takes, and the size of a file of eight
gibibytes does not fit into its header. -/
theorem unfit_files_garbled :
    (Ustar.read (buildTar [oldFile] uncancelled).1.flatten = none ∧ ¬ Faithful [oldFile]) ∧
      ¬ Faithful [zerosFile (8 ^ 11)] := by
  have hold : ∀ item ∈ [oldFile], item.file.Honest := by
    intro item hitem
    obtain rfl := List.mem_singleton.mp hitem
    exact ⟨rfl,rfl⟩
  refine ⟨⟨by decide +kernel,?_⟩,?_⟩
  · intro h
    have hfits := fits_of_written (h.archive hold).2 hold oldFile (by simp)
    have hepoch : (0 : Int) ≤ -1 / 1000 := hfits.epoch
    omega
  · intro h
    have hhonest := honest_zerosFile (8 ^ 11)
    have hfits := fits_of_written (h.archive hhonest).2 hhonest _ List.mem_cons_self
    exact absurd hfits.size (Nat.lt_irrefl _)

end WeirdVault.Transfers.Tar
