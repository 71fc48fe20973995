import WeirdVault.Storage.Listing

/-!
# What a listing returns

Pages as a bucket writes them, in any layout. Every object is read once, with its own time.
-/

namespace WeirdVault.Storage

open WeirdVault.Framework
open WeirdVault.Framework.Tags

inductive Tag where
  | contents | key | lastModified | isTruncated | next
deriving DecidableEq

def Tag.name : Tag → Text
  | contents => "Contents".toList
  | key => "Key".toList
  | lastModified => "LastModified".toList
  | isTruncated => "IsTruncated".toList
  | next => "NextContinuationToken".toList

private theorem name_plain (t : Tag) : '<' ∉ t.name ∧ '>' ∉ t.name := by
  cases t <;> decide

private theorem close_plain (t : Tag) : '<' ∉ '/' :: t.name ∧ '>' ∉ '/' :: t.name := by
  cases t <;> decide

def element (t : Tag) (w : Text) (h : '<' ∉ w) : List Token :=
  [.tag t.name (name_plain t),.words w h,.tag ('/' :: t.name) (close_plain t)]

def Other (token : Token) : Prop := ∀ t : Tag, token.name? ≠ some t.name ∧
  token.name? ≠ some ('/' :: t.name) ∧
  token.name?.map (·.map Char.toLower) ≠ some "istruncated".toList

/-- An object as an answer writes it: its key, its time, and what else there is. -/
structure Entry where
  key : Written
  stamp : Text
  stamp_plain : '<' ∉ stamp
  keyFirst : Bool
  before : List Token
  middle : List Token
  after : List Token
  others : ∀ t ∈ before ++ middle ++ after, Other t

def Entry.inner (e : Entry) : List Token :=
  let key := element .key e.key.markup (not_mem_markup e.key)
  let stamp := element .lastModified e.stamp e.stamp_plain
  e.before ++ (if e.keyFirst then key ++ e.middle ++ stamp else stamp ++ e.middle ++ key) ++ e.after

inductive Node where
  | other (t : Token) (h : Other t)
  | entry (e : Entry)
  | truncated (b : Bool)
  | next (token : Written)

def boolText (b : Bool) : Text := if b then "true".toList else "false".toList

private theorem boolText_plain (b : Bool) : '<' ∉ boolText b := by
  cases b <;> decide

def Node.tokens : Node → List Token
  | other t _ => [t]
  | entry e => .tag Tag.contents.name (name_plain _) ::
      (e.inner ++ [.tag ('/' :: Tag.contents.name) (close_plain _)])
  | truncated b => element .isTruncated (boolText b) (boolText_plain b)
  | next token => element .next token.markup (not_mem_markup token)

def Node.entry? : Node → Option Entry
  | entry e => some e
  | _ => none

def Node.truncated? : Node → Option Bool
  | truncated b => some b
  | _ => none

def Node.next? : Node → Option Written
  | next token => some token
  | _ => none

/-- An answer says once whether it is truncated, and holds at most one token. -/
structure Page where
  nodes : List Node
  truncated : Bool
  next : Option Written
  truncated_once : nodes.filterMap Node.truncated? = [truncated]
  next_once : nodes.filterMap Node.next? = next.toList

def Page.text (page : Page) : Text := write (page.nodes.flatMap Node.tokens)

def Page.entries (page : Page) : List Entry := page.nodes.filterMap Node.entry?

private theorem lacks_append {name : Text} {ts us : List Token} (ht : Lacks name ts)
    (hu : Lacks name us) : Lacks name (ts ++ us) := by
  intro t hmem
  rcases List.mem_append.mp hmem with hmem | hmem
  · exact ht t hmem
  · exact hu t hmem

private theorem lacks_element {name : Text} {t : Tag} {w : Text} {h : '<' ∉ w} (hopen : t.name ≠ name)
    (hclose : '/' :: t.name ≠ name) : Lacks name (element t w h) := by
  intro token hmem
  simp only [element,List.mem_cons,List.not_mem_nil,or_false] at hmem
  rcases hmem with rfl | rfl | rfl
  · simpa [Token.name?] using hopen
  · simp [Token.name?]
  · simpa [Token.name?] using hclose

private theorem lacks_others (ts : List Token) (h : ∀ t ∈ ts, Other t) (t : Tag) :
    Lacks t.name ts ∧ Lacks ('/' :: t.name) ts :=
  ⟨fun token hmem => (h token hmem t).1,fun token hmem => (h token hmem t).2.1⟩

theorem names_apart : ∀ t u : Tag, t ≠ u → t.name ≠ u.name := by
  intro t u
  cases t <;> cases u <;> decide

theorem close_apart : ∀ t u : Tag, '/' :: t.name ≠ u.name := by
  intro t u
  cases t <;> cases u <;> decide

private theorem lacks_other_element {t u : Tag} (h : t ≠ u) {w : Text} (hw : '<' ∉ w) :
    Lacks u.name (element t w hw) ∧ Lacks ('/' :: u.name) (element t w hw) := by
  refine ⟨lacks_element (names_apart t u h) (close_apart t u),
    lacks_element (fun heq => close_apart u t heq.symm) ?_⟩
  intro heq
  exact names_apart t u h (List.cons.inj heq).2

theorem exec_element {t : Tag} {ts : List Token} (h : Lacks t.name ts) {w : Text} (hw : '<' ∉ w)
    (us : List Token) :
    exec t.name (write (ts ++ (element t w hw ++ us))) = some w := by
  have hwords : Lacks ('/' :: t.name) [Token.words w hw] := by
    intro token hmem
    obtain rfl := List.mem_singleton.mp hmem
    intro hsame
    cases hsame
  have hexec := exec_here (name_plain t).2 h hwords (write us)
  simpa [element,Token.write] using hexec

private theorem lacks_inner (e : Entry) {t : Tag} (hkey : t ≠ .key) (hstamp : t ≠ .lastModified) :
    Lacks t.name e.inner ∧ Lacks ('/' :: t.name) e.inner := by
  have hbefore := lacks_others e.before (fun u hu => e.others u (by simp [hu])) t
  have hmiddle := lacks_others e.middle (fun u hu => e.others u (by simp [hu])) t
  have hafter := lacks_others e.after (fun u hu => e.others u (by simp [hu])) t
  have hkey' := lacks_other_element (Ne.symm hkey) (not_mem_markup e.key)
  have hstamp' := lacks_other_element (Ne.symm hstamp) e.stamp_plain
  constructor
  · unfold Entry.inner
    split
    · exact lacks_append (lacks_append hbefore.1
        (lacks_append (lacks_append hkey'.1 hmiddle.1) hstamp'.1)) hafter.1
    · exact lacks_append (lacks_append hbefore.1
        (lacks_append (lacks_append hstamp'.1 hmiddle.1) hkey'.1)) hafter.1
  · unfold Entry.inner
    split
    · exact lacks_append (lacks_append hbefore.2
        (lacks_append (lacks_append hkey'.2 hmiddle.2) hstamp'.2)) hafter.2
    · exact lacks_append (lacks_append hbefore.2
        (lacks_append (lacks_append hstamp'.2 hmiddle.2) hkey'.2)) hafter.2

theorem storedObject_entry (parse : Text → Option ℤ) (e : Entry) :
    storedObject parse (write e.inner) = some ⟨e.key.text,(parse e.stamp).getD 0⟩ := by
  have hbefore := lacks_others e.before fun u hu => e.others u (by simp [hu])
  have hmiddle := lacks_others e.middle fun u hu => e.others u (by simp [hu])
  have hboth : exec Tag.key.name (write e.inner) = some e.key.markup ∧
      exec Tag.lastModified.name (write e.inner) = some e.stamp := by
    unfold Entry.inner
    split
    · have hkey := @lacks_other_element .key .lastModified (by decide) _ (not_mem_markup e.key)
      constructor
      · have hexec := exec_element (hbefore .key).1 (not_mem_markup e.key)
          (e.middle ++ (element .lastModified e.stamp e.stamp_plain ++ e.after))
        simpa only [List.append_assoc] using hexec
      · have hexec := exec_element
          (lacks_append (hbefore .lastModified).1 (lacks_append hkey.1 (hmiddle .lastModified).1))
          e.stamp_plain e.after
        simpa only [List.append_assoc] using hexec
    · have hstamp := @lacks_other_element .lastModified .key (by decide) _ e.stamp_plain
      constructor
      · have hexec := exec_element
          (lacks_append (hbefore .key).1 (lacks_append hstamp.1 (hmiddle .key).1))
          (not_mem_markup e.key) e.after
        simpa only [List.append_assoc] using hexec
      · have hexec := exec_element (hbefore .lastModified).1 e.stamp_plain
          (e.middle ++ (element .key e.key.markup (not_mem_markup e.key) ++ e.after))
        simpa only [List.append_assoc] using hexec
  have hunescape : unescapeXml e.key.markup = e.key.text := replace_markup e.key
  rw [storedObject]
  show (exec Tag.key.name _).map _ = _
  rw [hboth.1,Option.map_some,hunescape]
  show some (StoredObject.mk _ (((exec Tag.lastModified.name _).bind parse).getD 0)) = _
  rw [hboth.2]
  rfl

private theorem lacks_contents {node : Node} (h : node.entry? = none) :
    Lacks Tag.contents.name node.tokens := by
  cases node with
  | other token hother =>
    intro u hu
    obtain rfl := List.mem_singleton.mp hu
    exact (hother .contents).1
  | entry e => cases h
  | truncated b => exact (lacks_other_element (by decide) _).1
  | next token => exact (lacks_other_element (by decide) _).1

private theorem lacks_next {node : Node} (h : node.next? = none) :
    Lacks Tag.next.name node.tokens := by
  cases node with
  | other token hother =>
    intro u hu
    obtain rfl := List.mem_singleton.mp hu
    exact (hother .next).1
  | entry e =>
    have hinner := (lacks_inner e (t := .next) (by decide) (by decide)).1
    intro u hu
    rcases List.mem_cons.mp hu with rfl | hu
    · exact fun hsame => names_apart .contents .next (by decide) (Option.some.inj hsame)
    · rcases List.mem_append.mp hu with hu | hu
      · exact hinner u hu
      · obtain rfl := List.mem_singleton.mp hu
        exact fun hsame => close_apart .contents .next (Option.some.inj hsame)
  | truncated b => exact (lacks_other_element (by decide) _).1
  | next token => cases h

theorem matches_nodes (nodes : List Node) (n : ℕ) (hn : (nodes.filterMap Node.entry?).length ≤ n) :
    matchesUpTo Tag.contents.name n (write (nodes.flatMap Node.tokens)) =
      (nodes.filterMap Node.entry?).map fun e => write e.inner := by
  induction nodes generalizing n with
  | nil => exact matchesUpTo_nil _ n
  | cons node nodes ih =>
    rw [List.flatMap_cons,write_append]
    cases hentry : node.entry? with
    | none =>
      rw [List.filterMap_cons_none hentry] at hn ⊢
      rw [matchesUpTo_skip (name_plain .contents).2 (lacks_contents hentry),ih n hn]
    | some e =>
      rw [List.filterMap_cons_some hentry,List.length_cons] at hn
      obtain ⟨m,rfl⟩ := Nat.exists_eq_add_of_lt (Nat.lt_of_lt_of_le (Nat.succ_pos _) hn)
      have hhere := matchesUpTo_here (name_plain .contents).2
        (lacks_inner e (t := .contents) (by decide) (by decide)).2 m (write (nodes.flatMap Node.tokens))
      have hnode : node = .entry e := by
        cases node with
        | entry e' => exact congrArg Node.entry (Option.some.inj hentry)
        | other | truncated | next => cases hentry
      rw [ih m (by omega)] at hhere
      rw [List.filterMap_cons_some hentry,hnode,Nat.zero_add]
      simpa [Node.tokens,Token.write] using hhere

private theorem entries_le (nodes : List Node) :
    (nodes.filterMap Node.entry?).length ≤ (write (nodes.flatMap Node.tokens)).length := by
  induction nodes with
  | nil => exact Nat.le_refl _
  | cons node nodes ih =>
    rw [List.flatMap_cons,write_append,List.length_append]
    cases node with
    | entry e =>
      simp only [Node.entry?,List.filterMap_cons,List.length_cons,Node.tokens,write_cons,Token.write,
        tagText,List.length_append]
      omega
    | other | truncated | next =>
      simp only [Node.entry?,List.filterMap_cons]
      omega

theorem objectsOf_page (parse : Text → Option ℤ) (page : Page) : objectsOf parse page.text =
    page.entries.map fun e => ⟨e.key.text,(parse e.stamp).getD 0⟩ := by
  have hmatch : matchAll "Contents".toList page.text = page.entries.map fun e => write e.inner :=
    matches_nodes page.nodes page.text.length (entries_le page.nodes)
  rw [objectsOf,hmatch,List.filterMap_map,← List.filterMap_eq_map]
  apply List.filterMap_congr
  intro e _
  exact storedObject_entry parse e

private theorem exec_next (nodes : List Node) :
    exec Tag.next.name (write (nodes.flatMap Node.tokens)) =
      (nodes.filterMap Node.next?).head?.map Written.markup := by
  induction nodes with
  | nil => rfl
  | cons node nodes ih =>
    rw [List.flatMap_cons,write_append]
    cases hnext : node.next? with
    | none =>
      rw [exec,between_skip (name_plain .next).2 (lacks_next hnext),← exec,ih,
        List.filterMap_cons_none hnext]
    | some token =>
      have hnode : node = .next token := by
        cases node with
        | next token' => exact congrArg Node.next (Option.some.inj hnext)
        | other | truncated | entry => cases hnext
      have hexec := @exec_element .next [] (fun u hu => absurd hu List.not_mem_nil) _
        (not_mem_markup token) (nodes.flatMap Node.tokens)
      rw [List.filterMap_cons_some hnext,hnode]
      simpa [Node.tokens] using hexec

/-- No tag that the expression for truncation could take for its own. -/
private def Unlike (ts : List Token) : Prop :=
  ∀ t ∈ ts, t.name?.map (·.map Char.toLower) ≠ some "istruncated".toList

private theorem unlike_append {ts us : List Token} (ht : Unlike ts) (hu : Unlike us) :
    Unlike (ts ++ us) := by
  intro t hmem
  rcases List.mem_append.mp hmem with hmem | hmem
  · exact ht t hmem
  · exact hu t hmem

private theorem unlike_others {ts : List Token} (h : ∀ t ∈ ts, Other t) : Unlike ts :=
  fun t ht => (h t ht .isTruncated).2.2

private theorem unlike_names : ∀ t : Tag, t ≠ .isTruncated →
    t.name.map Char.toLower ≠ "istruncated".toList := by
  intro t
  cases t <;> decide

private theorem unlike_closes : ∀ t : Tag,
    ('/' :: t.name).map Char.toLower ≠ "istruncated".toList := by
  intro t
  cases t <;> decide

private theorem unlike_element {t : Tag} (ht : t ≠ .isTruncated) {w : Text} {h : '<' ∉ w} :
    Unlike (element t w h) := by
  intro token hmem
  simp only [element,List.mem_cons,List.not_mem_nil,or_false] at hmem
  rcases hmem with rfl | rfl | rfl
  · exact fun hsame => unlike_names t ht (Option.some.inj hsame)
  · intro hsame
    cases hsame
  · exact fun hsame => unlike_closes t (Option.some.inj hsame)

private theorem unlike_entry (e : Entry) : Unlike (Node.entry e).tokens := by
  have hbefore : Unlike e.before := unlike_others fun u hu => e.others u (by simp [hu])
  have hmiddle : Unlike e.middle := unlike_others fun u hu => e.others u (by simp [hu])
  have hafter : Unlike e.after := unlike_others fun u hu => e.others u (by simp [hu])
  have hkey := unlike_element (t := .key) (by decide) (h := not_mem_markup e.key)
  have hstamp := unlike_element (t := .lastModified) (by decide) (h := e.stamp_plain)
  have hinner : Unlike e.inner := by
    unfold Entry.inner
    split
    · exact unlike_append (unlike_append hbefore
        (unlike_append (unlike_append hkey hmiddle) hstamp)) hafter
    · exact unlike_append (unlike_append hbefore
        (unlike_append (unlike_append hstamp hmiddle) hkey)) hafter
  intro token hmem
  rcases List.mem_cons.mp hmem with rfl | hmem
  · exact fun hsame => unlike_names .contents (by decide) (Option.some.inj hsame)
  · rcases List.mem_append.mp hmem with hmem | hmem
    · exact hinner token hmem
    · obtain rfl := List.mem_singleton.mp hmem
      exact fun hsame => unlike_closes .contents (Option.some.inj hsame)

private theorem begins_truncated (b : Bool) (s : Text) :
    beginsFolded isBlank "istruncated".toList "true".toList
      (tagText Tag.isTruncated.name ++ (boolText b ++ (tagText ('/' :: Tag.isTruncated.name) ++ s))) =
      b := by
  have hblank : ∀ r, (boolText b ++ r).dropWhile isBlank = boolText b ++ r := by
    intro r
    cases b
    · exact List.dropWhile_cons_of_neg (by decide)
    · exact List.dropWhile_cons_of_neg (by decide)
  have hclose : (tagText ('/' :: Tag.isTruncated.name) ++ s).dropWhile isBlank =
      tagText ('/' :: Tag.isTruncated.name) ++ s := List.dropWhile_cons_of_neg (by decide)
  rw [beginsFolded,dropFolded_append (by decide),Option.bind_some,hblank]
  cases b with
  | false => rfl
  | true =>
    rw [boolText,if_pos rfl,dropFolded_append (by decide),Option.bind_some,hclose,
      dropFolded_append (by decide)]
    rfl

private theorem test_nodes (nodes : List Node) :
    testFolded isBlank "istruncated".toList "true".toList (write (nodes.flatMap Node.tokens)) =
      (nodes.filterMap Node.truncated?).any id := by
  have hname : '>' ∉ "istruncated".toList := by decide
  induction nodes with
  | nil => decide
  | cons node nodes ih =>
    rw [List.flatMap_cons,write_append]
    cases node with
    | other token h =>
      have hunlike : Unlike [token] := by
        intro t ht
        obtain rfl := List.mem_singleton.mp ht
        exact (h .isTruncated).2.2
      exact (testFolded_write hname hunlike _).trans ih
    | entry e => exact (testFolded_write hname (unlike_entry e) _).trans ih
    | next token => exact (testFolded_write hname (unlike_element (by decide)) _).trans ih
    | truncated b =>
      have hhere := @testFolded_here isBlank _ "true".toList _ _ _
        (name_plain .isTruncated).1 (close_plain .isTruncated).1 (boolText_plain b)
        (unlike_closes .isTruncated) hname (close_plain .isTruncated).2
        (write (nodes.flatMap Node.tokens))
      rw [begins_truncated,ih] at hhere
      simpa [Node.tokens,element,Token.write,Node.truncated?] using hhere

theorem following_page (page : Page) : following page.text =
    if page.truncated then page.next.map Written.text else none := by
  have htest : testFolded isBlank "istruncated".toList "true".toList page.text = page.truncated := by
    rw [Page.text,test_nodes,page.truncated_once]
    simp
  have hexec : exec "NextContinuationToken".toList page.text = page.next.map Written.markup := by
    have hnodes := exec_next page.nodes
    rw [page.next_once] at hnodes
    rw [Page.text]
    refine hnodes.trans ?_
    cases page.next <;> rfl
  rw [following,htest,hexec]
  split
  · rw [Option.map_map]
    congr 1
    funext token
    exact replace_markup token
  · rfl

/-- What the bucket answers: page after page, each but the last with a token that leads on. -/
inductive Paged (ask : List (Text × Text) → Fetched) (pfx : Text) : Option Text → List Page → Prop
  | last {token : Option Text} {page : Page} :
    ask (listQuery pfx token) = .ok ⟨200,some page.text⟩ → page.truncated = false →
    Paged ask pfx token [page]
  | more {token : Option Text} {page : Page} {next : Written} {pages : List Page} :
    ask (listQuery pfx token) = .ok ⟨200,some page.text⟩ → page.truncated = true →
    page.next = some next → next.text ≠ [] → Paged ask pfx (some next.text) pages →
    Paged ask pfx token (page :: pages)

variable {parse : Text → Option ℤ} {ask : List (Text × Text) → Fetched} {pfx : Text}

def Entry.stored (parse : Text → Option ℤ) (e : Entry) : StoredObject :=
  ⟨e.key.text,(parse e.stamp).getD 0⟩

private theorem listLoop_page {token : Option Text} {page : Page} {objects : List StoredObject}
    (h : ask (listQuery pfx token) = .ok ⟨200,some page.text⟩) (n : ℕ) :
    listLoop parse ask pfx (n+1) token objects =
      match if page.truncated then page.next.map Written.text else none with
      | some next => listLoop parse ask pfx n (some next)
          (objects ++ page.entries.map (Entry.stored parse))
      | none => some (.ok (objects ++ page.entries.map (Entry.stored parse))) := by
  have hok : (Reply.mk 200 (some page.text)).ok = true := rfl
  rw [listLoop,h]
  simp only [received,hok,if_true,following_page,objectsOf_page]
  rfl

theorem listLoop_paged {token : Option Text} {pages : List Page} (h : Paged ask pfx token pages)
    {n : ℕ} (hn : pages.length ≤ n) (objects : List StoredObject) :
    listLoop parse ask pfx n token objects =
      some (.ok (objects ++ (pages.flatMap Page.entries).map (Entry.stored parse))) := by
  induction h generalizing n objects with
  | last hask htruncated =>
    obtain ⟨m,rfl⟩ := Nat.exists_eq_add_of_lt (Nat.lt_of_lt_of_le (Nat.succ_pos _) hn)
    rw [listLoop_page hask,htruncated]
    simp
  | more hask htruncated hnext hne hpages ih =>
    obtain ⟨m,rfl⟩ := Nat.exists_eq_add_of_lt (Nat.lt_of_lt_of_le (Nat.succ_pos _) hn)
    rw [listLoop_page hask,htruncated,hnext]
    simp only [if_true,Option.map_some]
    rw [ih (by simp at hn; omega)]
    simp

private theorem countP_add (results : List (Except Thrown Unit)) :
    (results.countP fun r => r.isOk)+(results.countP fun r => !r.isOk) = results.length := by
  have hlength := List.length_eq_countP_add_countP (fun r : Except Thrown Unit => r.isOk) (l := results)
  simpa using hlength.symm

private def Counted (keys : List Text) (i : ℕ) (run : Deleting) : Prop :=
  run.attempted = keys.take i ∧ run.deleted+run.failed = run.attempted.length

private theorem counted_batch {delete : ℕ → Text → Fetched} {keys : List Text} {i : ℕ} {run : Deleting}
    (h : Counted keys i run) : Counted keys (i+DELETE_CONCURRENCY)
      (deleteBatch delete i ((keys.drop i).take DELETE_CONCURRENCY) run) := by
  obtain ⟨hattempted,hcount⟩ := h
  refine ⟨?_,?_⟩
  · rw [deleteBatch,hattempted,List.take_add]
  · have hbatch := countP_add ((((keys.drop i).take DELETE_CONCURRENCY).zipIdx).map fun k =>
      deleteObject (delete (i+k.2) k.1))
    rw [List.length_map,List.length_zipIdx] at hbatch
    simp only [deleteBatch,List.length_append]
    omega

theorem counted_loop {delete : ℕ → Text → Fetched} {keys : List Text} {i : ℕ} {run : Deleting}
    (h : Counted keys i run) : (deleteLoop delete keys i run).attempted = keys ∧
      (deleteLoop delete keys i run).deleted+(deleteLoop delete keys i run).failed = keys.length := by
  fun_induction deleteLoop delete keys i run with
  | case1 i run hlt batch ih => exact ih (counted_batch h)
  | case2 i run hge =>
    obtain ⟨hattempted,hcount⟩ := h
    rw [List.take_of_length_le (Nat.le_of_not_lt hge)] at hattempted
    rw [hattempted] at hcount ⊢
    exact ⟨rfl,hcount⟩

/-- Whatever the pages, every object is listed once with its own time, and deletes are sent for
every key once. -/
theorem listed_and_deleted (objects : List (Text × Text)) (hnodup : (objects.map Prod.fst).Nodup)
    (pages : List Page)
    (hobjects : ((pages.flatMap Page.entries).map fun e => (e.key.text,e.stamp)).Perm objects)
    (hpages : Paged ask pfx none pages) (delete : ℕ → Text → Fetched) :
    ∃ listed run, (∀ n, pages.length ≤ n → listObjects parse ask pfx n = some (.ok listed) ∧
        deletePrefix parse ask pfx delete n = some (.ok run)) ∧
      listed.Perm (objects.map fun o => ⟨o.1,(parse o.2).getD 0⟩) ∧ (listed.map (·.key)).Nodup ∧
      run.attempted.Perm (objects.map Prod.fst) ∧ run.attempted.Nodup ∧
      run.deleted+run.failed = objects.length := by
  have hpairs : (pages.flatMap Page.entries).map (Entry.stored parse) =
      ((pages.flatMap Page.entries).map fun e => (e.key.text,e.stamp)).map
        fun o => ⟨o.1,(parse o.2).getD 0⟩ := by
    rw [List.map_map]
    rfl
  have hkeys : ((pages.flatMap Page.entries).map (Entry.stored parse)).map (·.key) =
      ((pages.flatMap Page.entries).map fun e => (e.key.text,e.stamp)).map Prod.fst := by
    rw [List.map_map,List.map_map]
    rfl
  have hlisted : ∀ n, pages.length ≤ n → listObjects parse ask pfx n =
      some (.ok ((pages.flatMap Page.entries).map (Entry.stored parse))) :=
    fun n hn => listLoop_paged hpages hn []
  have hperm := hobjects.map Prod.fst
  rw [← hkeys] at hperm
  obtain ⟨hattempted,hcount⟩ := @counted_loop delete
    (((pages.flatMap Page.entries).map (Entry.stored parse)).map (·.key)) 0 ⟨[],0,0⟩ ⟨rfl,rfl⟩
  refine ⟨_,deleteLoop delete (((pages.flatMap Page.entries).map (Entry.stored parse)).map (·.key)) 0
    ⟨[],0,0⟩,fun n hn => ⟨hlisted n hn,?_⟩,?_,hperm.nodup_iff.mpr hnodup,?_,?_,?_⟩
  · rw [deletePrefix,listPrefix,hlisted n hn]
    rfl
  · rw [hpairs]
    exact hobjects.map _
  · rw [hattempted]
    exact hperm
  · rw [hattempted]
    exact hperm.nodup_iff.mpr hnodup
  · rw [hcount,hperm.length_eq,List.length_map]

private def entryOf (chunks : List Chunk) (stamp : Text) (h : '<' ∉ stamp) (keyFirst : Bool) : Entry where
  key := ⟨chunks⟩
  stamp := stamp
  stamp_plain := h
  keyFirst := keyFirst
  before := []
  middle := []
  after := []
  others := fun _ ht => nomatch ht

private def firstEntry : Entry := entryOf [.entity .lt,.plain 'a' (by decide)] ['1'] (by decide) true

private def secondEntry : Entry :=
  entryOf [.entity .amp,.plain 'l' (by decide),.plain 't' (by decide)] ['2'] (by decide) false

private def markerToken : Written := ⟨[.plain 'm' (by decide)]⟩

private def firstPage : Page :=
  ⟨[.truncated true,.entry firstEntry,.next markerToken],true,some markerToken,rfl,rfl⟩

private def lastPage : Page := ⟨[.entry secondEntry,.truncated false],false,none,rfl,rfl⟩

private def askTwice (query : List (Text × Text)) : Fetched :=
  .ok ⟨200,some (if query.length = 3 then firstPage.text else lastPage.text)⟩

theorem listed_and_deleted_two : ∃ listed run,
    (∀ n, 2 ≤ n → listObjects (fun _ => some 7) askTwice [] n = some (.ok listed) ∧
      deletePrefix (fun _ => some 7) askTwice [] (fun _ _ => .error []) n = some (.ok run)) ∧
    listed.Perm [⟨"<a".toList,7⟩,⟨"&lt".toList,7⟩] ∧ (listed.map (·.key)).Nodup ∧
    run.attempted.Perm ["<a".toList,"&lt".toList] ∧ run.attempted.Nodup ∧ run.deleted+run.failed = 2 :=
  listed_and_deleted [("<a".toList,['1']),("&lt".toList,['2'])] (by decide) [firstPage,lastPage]
    (List.Perm.refl _) (.more rfl rfl rfl (List.cons_ne_nil _ _) (.last rfl rfl)) _

end WeirdVault.Storage
