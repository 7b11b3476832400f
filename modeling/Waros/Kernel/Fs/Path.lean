import Waros.Kernel.Auth.Session

/-!
WarFS path handling (`kernel/src/fs/mod.rs`): canonical paths, parent
directories and directory markers.

`canonicalPath` walks over the pieces between slashes, drops the empty ones
and the single dots, refuses `..`, and joins the rest. Its specification
`canonicalPath_eq_ok` says so in one formula: the canonical path is the
rendering of the `components` of the trimmed string.
-/

namespace Waros.Kernel.Fs

open Lib Auth Str List

inductive FsError
  | fileNotFound
  | alreadyExists
  | filesystemFull
  | filenameTooLong
  | fileTooLarge
  | readOnly
  | invalidFilename
  | permissionDenied
  deriving DecidableEq

def maxPathLen : ℕ := 96
def maxComponentLen : ℕ := 31

def isComponentChar (c : Char) : Bool := isAsciiAlphanumeric c || c == '.' || c == '_' || c == '-'

def isValidComponent (component : Str) : Bool :=
  decide (byteLen component ≤ maxComponentLen) && component.all isComponentChar

/-- The loop of `canonical_path` over the remaining pieces. `first` says that
nothing has been appended after the leading slash yet. -/
def pushComponents : List Str → Str → Bool → Except FsError Str
  | [], result, _ => .ok result
  | component :: rest, result, first =>
    if component = [] ∨ component = ['.'] then pushComponents rest result first
    else if component = ['.', '.'] then .error .invalidFilename
    else if !isValidComponent component then .error .invalidFilename
    else pushComponents rest ((if first then result else result ++ ['/']) ++ component) false

/-- The path with a leading slash added when it has none. -/
def normalized (trimmed : Str) : Str :=
  if ['/'].isPrefixOf trimmed then trimmed else '/' :: trimmed

def canonicalPath (path : Str) : Except FsError Str :=
  let trimmed := trim path
  if trimmed = [] then .error .invalidFilename
  else
    match pushComponents ((normalized trimmed).splitOn '/') ['/'] true with
    | .error error => .error error
    | .ok result =>
      if byteLen result > maxPathLen then .error .filenameTooLong else .ok result

/-- The loop of `canonicalize_warexec_path`: here no piece is skipped. -/
def pushWarexecComponents : List Str → Str → Bool → Except FsError Str
  | [], result, _ => .ok result
  | component :: rest, result, first =>
    if component = [] ∨ component = ['.'] ∨ component = ['.', '.'] then
      .error .invalidFilename
    else if !isValidComponent component then .error .invalidFilename
    else pushWarexecComponents rest ((if first then result else result ++ ['/']) ++ component)
      false

/-- The stricter canonical form of the paths that user programs pass. -/
def canonicalizeWarexecPath (path : Str) (allowDirectoryTrailingSlash : Bool) :
    Except FsError Str :=
  let trimmed := trim path
  let hasTrailingSlash := decide (byteLen trimmed > 1) && trimmed.getLast? == some '/'
  let normalized :=
    if allowDirectoryTrailingSlash && hasTrailingSlash then trimEndMatches '/' trimmed
    else trimmed
  if trimmed = [] ∨ trimmed.head? ≠ some '/' then .error .invalidFilename
  else if hasTrailingSlash && !allowDirectoryTrailingSlash then .error .invalidFilename
  else if decide (byteLen normalized > 1) && contains normalized ['/', '/'] then
    .error .invalidFilename
  else if normalized = ['/'] then .ok ['/']
  else
    match pushWarexecComponents ((normalized.splitOn '/').drop 1) ['/'] true with
    | .error error => .error error
    | .ok result =>
      if byteLen result > maxPathLen then .error .filenameTooLong else .ok result

def parentDirectory (path : Str) : Str :=
  if path = ['/'] then ['/']
  else
    match beforeLast '/' (trimEndMatches '/' path) with
    | none => ['/']
    | some [] => ['/']
    | some parent => parent

def directoryMarkerName : Str := ['.', 'w', 'a', 'r', 'd', 'i', 'r']

def directoryMarkerPath (path : Str) : Str :=
  if path = ['/'] then '/' :: directoryMarkerName else path ++ ['/'] ++ directoryMarkerName

def defaultPermissionsFor (path : Str) (uid : UInt16) : FilePermissions :=
  if path = rootDir ∨ (rootDir ++ ['/']) <+: path ∨ homePrefix <+: path then
    .privateFor uid
  else .shared uid

/-- The pieces of a path that name something. -/
def components (path : Str) : List Str := (path.splitOn '/').filter fun c => c ≠ [] ∧ c ≠ ['.']

/-- The path with the given components. -/
def render : List Str → Str
  | [] => ['/']
  | c :: cs => '/' :: c ++ cs.flatMap ('/' :: ·)

/-- A component that `canonical_path` keeps. -/
def Proper (c : Str) : Prop := c ≠ [] ∧ c ≠ ['.'] ∧ c ≠ ['.', '.'] ∧ isValidComponent c = true
  deriving Decidable

variable {c : Str} {cs : List Str} {path : Str}

lemma slash_notMem_of_proper (h : Proper c) : '/' ∉ c := by
  intro hmem
  have hall := h.2.2.2
  rw [isValidComponent, Bool.and_eq_true, all_eq_true] at hall
  cases hall.2 '/' hmem

/-- What the loop returns, in terms of the components it keeps. -/
lemma pushComponents_eq_ok {ps : List Str} {res p : Str} {first : Bool} :
    pushComponents ps res first = .ok p ↔ (∀ c ∈ ps, c ≠ [] → c ≠ ['.'] → Proper c) ∧ p = res ++
          (match ps.filter (fun c => c ≠ [] ∧ c ≠ ['.']) with
          | [] => []
          | c :: cs => (if first then [] else ['/']) ++ c ++ cs.flatMap ('/' :: ·)) := by
  induction ps generalizing res first with
  | nil => simp [pushComponents, eq_comm]
  | cons c ps ih =>
    by_cases hskip : c = [] ∨ c = ['.']
    · have hkp : ¬ (c ≠ [] ∧ c ≠ ['.']) := by
        rw [← not_or]
        exact not_not.mpr hskip
      rw [pushComponents, if_pos hskip, ih, filter_cons_of_neg (by simpa using hkp)]
      constructor
      · rintro ⟨hprop, hp⟩
        refine ⟨?_, hp⟩
        intro d hd h1 h2
        rcases mem_cons.mp hd with rfl | hd
        · exact absurd ⟨h1, h2⟩ hkp
        · exact hprop d hd h1 h2
      · rintro ⟨hprop, hp⟩
        exact ⟨fun d hd => hprop d (mem_cons_of_mem _ hd), hp⟩
    · have hc : c ≠ [] ∧ c ≠ ['.'] := not_or.mp hskip
      rw [pushComponents, if_neg hskip, filter_cons_of_pos (by simpa using hc)]
      by_cases hprop : Proper c
      · rw [if_neg hprop.2.2.1, if_neg (by simp [hprop.2.2.2]), ih]
        refine and_congr ?_ ?_
        · simp only [forall_mem_cons]
          exact ⟨fun h => ⟨fun _ _ => hprop, h⟩, fun h => h.2⟩
        · -- the rest of the loop starts with `first` cleared
          cases hr : ps.filter (fun c => c ≠ [] ∧ c ≠ ['.']) with
          | nil | cons => cases first <;> simp
      · have hbad : c = ['.', '.'] ∨ isValidComponent c = false := by
          by_contra hgd
          rw [not_or] at hgd
          exact hprop ⟨hc.1, hc.2, hgd.1, by simpa using hgd.2⟩
        refine ⟨fun h => ?_, fun h => absurd (h.1 c mem_cons_self hc.1 hc.2) hprop⟩
        rcases hbad with hdots | hinva
        · rw [if_pos hdots] at h
          cases h
        · rw [if_pos (by simp [hinva] : (!isValidComponent c))] at h
          split_ifs at h

lemma components_cons_slash (path : Str) : components ('/' :: path) = components path := by
  have hspl := splitOn_append_cons_self [] path (a := '/')
  rw [nil_append] at hspl
  rw [components, hspl, components]
  simp

lemma components_normalized (path : Str) : components (normalized path) = components path := by
  rw [normalized]
  split_ifs
  · rfl
  · rfl

lemma pushComponents_splitOn {path p : Str} :
    pushComponents (path.splitOn '/') ['/'] true = .ok p ↔
      (∀ c ∈ components path, Proper c) ∧ p = render (components path) := by
  rw [pushComponents_eq_ok]
  refine and_congr ?_ ?_
  · simp [components]
  · rw [components]
    cases (path.splitOn '/').filter fun c => c ≠ [] ∧ c ≠ ['.'] <;> simp [render]

/-- `canonical_path` succeeds exactly on the non-blank strings whose components
are proper and whose rendering is short enough, and returns that rendering. -/
lemma canonicalPath_eq_ok {path p : Str} :
    canonicalPath path = .ok p ↔ trim path ≠ [] ∧ (∀ c ∈ components (trim path), Proper c) ∧
        p = render (components (trim path)) ∧ byteLen p ≤ maxPathLen := by
  have hlp := @pushComponents_splitOn (normalized (trim path))
  rw [components_normalized] at hlp
  simp only [canonicalPath]
  split_ifs with hemp
  · simp [hemp]
  · split
    · next error herr =>
      refine ⟨fun h => absurd h (by simp), ?_⟩
      rintro ⟨-, hprop, hp, -⟩
      rw [hlp.mpr ⟨hprop, hp⟩] at herr
      cases herr
    · next res hres =>
      obtain ⟨hprop, hres⟩ := hlp.mp hres
      constructor
      · intro h
        split_ifs at h
        cases h
        exact ⟨hemp, hprop, hres, by omega⟩
      · rintro ⟨-, -, rfl, hlen⟩
        rw [← hres] at hlen ⊢
        rw [if_neg (by omega)]

/-! ### Rendering and splitting -/

/-- A slash separates the components before it from those after it. -/
lemma components_append_slash (left right : Str) :
    components (left ++ '/' :: right) = components left ++ components right := by
  rw [components, splitOn_append_cons_self, filter_append]
  rfl

lemma components_of_piece (hsla : '/' ∉ c) (hne : c ≠ []) (hdot : c ≠ ['.']) :
    components c = [c] := by
  rw [components, splitOn_eq_singleton hsla]
  simp [hne, hdot]

lemma components_of_proper (h : Proper c) : components c = [c] :=
  components_of_piece (slash_notMem_of_proper h) h.1 h.2.1

lemma components_flatMap (h : ∀ c ∈ cs, Proper c) : components (cs.flatMap ('/' :: ·)) = cs := by
  induction cs with
  | nil => rfl
  | cons c cs ih =>
    have hc := h c mem_cons_self
    have hcs := ih fun d hd => h d (mem_cons_of_mem _ hd)
    cases cs with
    | nil => simp [components_cons_slash, components_of_proper hc]
    | cons =>
      rw [flatMap_cons, cons_append, components_cons_slash]
      rw [flatMap_cons, cons_append] at hcs ⊢
      rw [components_append_slash, components_of_proper hc, ← components_cons_slash, hcs]
      rfl

lemma render_eq_flatMap (h : cs ≠ []) : render cs = cs.flatMap ('/' :: ·) := by
  cases cs with
  | nil => exact absurd rfl h
  | cons => simp [render]

lemma components_render (h : ∀ c ∈ cs, Proper c) : components (render cs) = cs := by
  by_cases hcs : cs = []
  · subst hcs
    rfl
  · rw [render_eq_flatMap hcs, components_flatMap h]

lemma isWhitespace_of_isComponentChar {x : Char} (h : isComponentChar x) :
    isWhitespace x = false := by
  simp only [isComponentChar, isAsciiAlphanumeric, Bool.or_eq_true, Bool.and_eq_true,
    decide_eq_true_eq, beq_iff_eq, Char.le_def, UInt32.le_iff_toNat_le] at h
  simp only [isWhitespace, Char.toNat]
  have hbds : 0x21 ≤ x.val.toNat ∧ x.val.toNat ≤ 0x7A := by
    rcases h with (((((h | h) | h) | h) | h) | h)
    · exact ⟨h.1.trans' (by decide), h.2.trans (by decide)⟩
    · exact ⟨h.1.trans' (by decide), h.2.trans (by decide)⟩
    · exact ⟨h.1.trans' (by decide), h.2.trans (by decide)⟩
    all_goals subst h; decide
  simp only [Bool.or_eq_false_iff, Bool.and_eq_false_iff, decide_eq_false_iff_not,
    beq_eq_false_iff_ne]
  omega

/-- The characters of a path whose components are all proper. -/
lemma isComponentChar_of_components (h : ∀ c ∈ components path, Proper c) :
    ∀ x ∈ path, x = '/' ∨ isComponentChar x := by
  intro x hx
  by_cases hsla : x = '/'
  · exact .inl hsla
  · obtain ⟨piece, hpie, hxp⟩ := exists_mem_splitOn hx hsla
    by_cases hdot : piece = ['.']
    · rw [hdot, mem_singleton] at hxp
      subst hxp
      exact .inr (by decide)
    · have hmem : piece ∈ components path := by
        simp only [components, mem_filter, decide_eq_true_eq]
        exact ⟨hpie, ne_nil_of_mem hxp, hdot⟩
      have hval := (h piece hmem).2.2.2
      rw [isValidComponent, Bool.and_eq_true, all_eq_true] at hval
      exact .inr (hval.2 x hxp)

lemma no_whitespace_of_components (h : ∀ c ∈ components path, Proper c) :
    ∀ x ∈ path, isWhitespace x = false := by
  intro x hx
  rcases isComponentChar_of_components h x hx with rfl | hchar
  · decide
  · exact isWhitespace_of_isComponentChar hchar

lemma trim_render (h : ∀ c ∈ cs, Proper c) : trim (render cs) = render cs := by
  apply trim_of_no_whitespace
  apply no_whitespace_of_components
  rwa [components_render h]

lemma render_ne_nil (cs : List Str) : render cs ≠ [] := by cases cs <;> simp [render]

lemma canonicalPath_render {cs : List Str} (h : ∀ c ∈ cs, Proper c)
    (hlen : byteLen (render cs) ≤ maxPathLen) :
    canonicalPath (render cs) = .ok (render cs) := by
  rw [canonicalPath_eq_ok, trim_render h, components_render h]
  exact ⟨render_ne_nil cs, h, rfl, hlen⟩

lemma zero_notMem_of_canonicalPath (h : canonicalPath path = .ok path) : 0 ∉ toUtf8 path := by
  obtain ⟨-, hprop, hren, -⟩ := canonicalPath_eq_ok.1 h
  apply zero_notMem_toUtf8
  intro c hc h0
  rw [hren] at hc
  have hnul : c = .ofNat 0 := by rw [← h0, Char.ofNat_toNat]
  rcases isComponentChar_of_components (by rwa [components_render hprop]) c hc with rfl | hchar
  · cases h0
  · rw [hnul] at hchar
    cases hchar

lemma byteLen_append (s t : Str) : byteLen (s ++ t) = byteLen s + byteLen t := by simp [byteLen]

lemma byteLen_pos {s : Str} (h : s ≠ []) : 0 < byteLen s := by
  obtain ⟨c, cs, rfl⟩ := exists_cons_of_ne_nil h
  have := Char.utf8Size_pos c
  simp [byteLen]
  omega

/-- A slash inside joined components stands in front of one of them. -/
lemma flatMap_eq_append_slash (h : ∀ c ∈ cs, Proper c) {q t : Str}
    (heq : cs.flatMap ('/' :: ·) = q ++ '/' :: t) :
    ∃ front c back, cs = front ++ c :: back ∧ q = front.flatMap ('/' :: ·) ∧
      t = c ++ back.flatMap ('/' :: ·) := by
  induction cs generalizing q with
  | nil => simp at heq
  | cons c cs ih =>
    have hc := h c mem_cons_self
    cases q with
    | nil =>
      refine ⟨[], c, cs, rfl, rfl, ?_⟩
      simpa using heq.symm
    | cons _ q =>
      simp only [flatMap_cons, cons_append, cons.injEq] at heq
      obtain ⟨rfl, heq⟩ := heq
      -- the slash is not inside `c`, so `c` is a beginning of `q`
      rcases append_eq_append_iff.mp heq with ⟨q', rfl, hq'⟩ | ⟨c', hcq, hsla⟩
      · obtain ⟨front, d, back, rfl, rfl, rfl⟩ := ih (fun e he => h e (mem_cons_of_mem _ he)) hq'
        exact ⟨c :: front, d, back, rfl, by simp, rfl⟩
      · cases c' with
        | nil =>
          have hq' : cs.flatMap ('/' :: ·) = [] ++ '/' :: t := by simpa using hsla.symm
          obtain ⟨front, d, back, rfl, hfro, rfl⟩ := ih (fun e he => h e (mem_cons_of_mem _ he)) hq'
          exact ⟨c :: front, d, back, rfl, by simp [hcq, ← hfro], rfl⟩
        | cons y =>
          have hy : y = '/' := by simpa using (cons.inj hsla).1.symm
          exact absurd (by simp [hcq, hy]) (slash_notMem_of_proper hc)

/-- What stands before a slash in a canonical path is a canonical directory:
it has room for a file of one letter. -/
lemma canonicalPath_sibling {n q : Str} (hn : canonicalPath n = .ok n)
    (hq : (q ++ ['/']) <+: n) : canonicalPath (q ++ ['/', 'x']) = .ok (q ++ ['/', 'x']) := by
  obtain ⟨-, hprop, hren, hlen⟩ := canonicalPath_eq_ok.mp hn
  obtain ⟨t, ht⟩ := hq
  rw [append_assoc, singleton_append] at ht
  have hx : Proper ['x'] := by decide
  by_cases hcs : components (trim n) = []
  · rw [hcs, ← ht] at hren
    have hqnil : q = [] := by
      cases q with
      | nil => rfl
      | cons => simp [render] at hren
    subst hqnil
    rfl
  · rw [render_eq_flatMap hcs] at hren
    obtain ⟨front, c, back, hspl, rfl, rfl⟩ :=
      flatMap_eq_append_slash hprop (hren.symm.trans ht.symm)
    have hc : Proper c := hprop c (by simp [hspl])
    have hfro : ∀ d ∈ front ++ [['x']], Proper d := by
      intro d hd
      rcases mem_append.mp hd with hd | hd
      · exact hprop d (by simp [hspl, hd])
      · rw [mem_singleton.mp hd]
        exact hx
    have hpt : front.flatMap ('/' :: ·) ++ ['/', 'x'] = render (front ++ [['x']]) := by
      rw [render_eq_flatMap (by simp)]
      simp
    rw [hpt]
    apply canonicalPath_render hfro
    rw [← hpt]
    rw [← ht, byteLen_append] at hlen
    have hcpos := byteLen_pos hc.1
    have htail : byteLen ('/' :: (c ++ back.flatMap ('/' :: ·))) =
        1 + (byteLen c + byteLen (back.flatMap ('/' :: ·))) := by
      rw [← byteLen_append]
      rfl
    have hxlen : byteLen ['/', 'x'] = 2 := rfl
    rw [byteLen_append]
    omega

end Waros.Kernel.Fs
