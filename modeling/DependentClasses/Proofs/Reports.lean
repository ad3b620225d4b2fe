import DependentClasses.Proofs.TextPlaces
import DependentClasses.Report
import Mathlib.Data.List.Induction
import Mathlib.Tactic.Common

/-! What reports show. A place in a source stands on one of its lines, between what is to the left
of it and what is to the right. A report shows that line with carets below it, from the columns of
the place on. -/
namespace DependentClasses

namespace Text

variable {l s : List Char}

def unlines (ls : List (List Char)) : List Char := ls.flatMap (· ++ ['\n'])

/-- A place in a text: the lines above that of the place, what is to the left and to the right of
the place on its own line, and what comes after that line. -/
structure Around where
  above : List (List Char)
  left : List Char
  right : List Char
  below : List Char
  above_lines : ∀ l ∈ above, '\n' ∉ l
  left_on_line : '\n' ∉ left
  right_on_line : '\n' ∉ right
  below_starts : below = [] ∨ ∃ rest, below = '\n' :: rest

namespace Around

def before (a : Around) : List Char := unlines a.above ++ a.left

def text (a : Around) : List Char := a.before ++ (a.right ++ a.below)

end Around

@[simp] theorem unlines_nil : unlines [] = [] := rfl

@[simp] theorem unlines_cons (l : List Char) (ls : List (List Char)) :
    unlines (l :: ls) = l ++ '\n' :: unlines ls := by
  simp [unlines]

@[simp] theorem unlines_concat (ls : List (List Char)) (l : List Char) :
    unlines (ls ++ [l]) = unlines ls ++ (l ++ ['\n']) := by
  simp [unlines]

/-- Each line has one line feed. -/
theorem count_unlines {ls : List (List Char)} (h : ∀ l ∈ ls, '\n' ∉ l) :
    (unlines ls).count '\n' = ls.length := by
  induction ls with
  | nil => rfl
  | cons l ls ih =>
    obtain ⟨hl, hls⟩ := List.forall_mem_cons.1 h
    simp [ih hls, List.count_eq_zero.2 hl]

theorem byteLength_eq_zero : byteLength s = 0 ↔ s = [] := by
  refine ⟨fun h => List.length_eq_zero_iff.1 ?_, fun h => h ▸ rfl⟩
  have := length_le_byteLength s
  omega

/-- Every text is made of lines and of what comes after the last line feed. -/
theorem exists_unlines (s : List Char) :
    ∃ above left, s = unlines above ++ left ∧ (∀ l ∈ above, '\n' ∉ l) ∧ '\n' ∉ left := by
  induction s using List.reverseRecOn with
  | nil => exact ⟨[], [], rfl, by simp, by simp⟩
  | append_singleton s c ih =>
    obtain ⟨above, left, rfl, habove, hleft⟩ := ih
    obtain rfl | hc := eq_or_ne c '\n'
    · exact ⟨above ++ [left], [], by simp,
        List.forall_mem_append.2 ⟨habove, by simpa using hleft⟩, by simp⟩
    · exact ⟨above, left ++ [c], by simp, habove, by simp [hleft, hc.symm]⟩

theorem exists_line (s : List Char) :
    ∃ right below, s = right ++ below ∧ '\n' ∉ right ∧
      (below = [] ∨ ∃ rest, below = '\n' :: rest) := by
  induction s with
  | nil => exact ⟨[], [], rfl, by simp, .inl rfl⟩
  | cons c s ih =>
    obtain rfl | hc := eq_or_ne c '\n'
    · exact ⟨[], '\n' :: s, rfl, by simp, .inr ⟨s, rfl⟩⟩
    · obtain ⟨right, below, rfl, hright, hbelow⟩ := ih
      exact ⟨c :: right, below, rfl, by simp [hright, hc.symm], hbelow⟩

namespace Around

/-- Wherever a text can be cut, there is a place on one of its lines. -/
theorem exists_before (s t : List Char) : ∃ a : Around, a.text = s ++ t ∧ a.before = s := by
  obtain ⟨above, left, rfl, habove, hleft⟩ := exists_unlines s
  obtain ⟨right, below, rfl, hright, hbelow⟩ := exists_line t
  exact ⟨⟨above, left, right, below, habove, hleft, hright, hbelow⟩, rfl, rfl⟩

/-- A place past the end of a source is taken back to the end. -/
theorem exists_at {source : String} {n : Nat}
    (h : String.Pos.Raw.IsValid source ⟨n⟩ ∨ source.utf8ByteSize ≤ n) :
    ∃ a : Around, a.text = source.toList ∧ byteLength a.before = min n source.utf8ByteSize := by
  rcases h with hvalid | hpast
  · obtain ⟨before, after, htext, rfl⟩ := isValid_iff.1 hvalid
    obtain ⟨a, ha, hbefore⟩ := exists_before before after
    have hle : byteLength before ≤ source.utf8ByteSize := by
      rw [utf8ByteSize_eq, htext, byteLength_append]
      exact Nat.le_add_right _ _
    exact ⟨a, ha.trans htext.symm, by rw [hbefore, Nat.min_eq_left hle]⟩
  · obtain ⟨a, ha, hbefore⟩ := exists_before source.toList []
    rw [List.append_nil] at ha
    exact ⟨a, ha, by rw [hbefore, ← utf8ByteSize_eq, Nat.min_eq_right hpast]⟩

theorem count_before (a : Around) : a.before.count '\n' = a.above.length := by
  rw [before, List.count_append, count_unlines a.above_lines,
    List.count_eq_zero.2 a.left_on_line, Nat.add_zero]

/-- The bytes between the last line feed before the place and the place. -/
theorem byteLength_left (a : Around) :
    byteLength a.before - byteLength (unlines a.above) = byteLength a.left := by
  rw [before, byteLength_append, Nat.add_sub_cancel_left]

theorem byteLength_text (a : Around) :
    byteLength a.text = byteLength a.before + byteLength (a.right ++ a.below) :=
  byteLength_append _ _

end Around

theorem flatten_lines (s : List Char) : (lines s).flatten = s := by
  induction s with
  | nil => rfl
  | cons c s ih =>
    rw [lines]
    split
    · rw [List.flatten_cons, ih]; rfl
    · split
      · next hnone =>
        rw [hnone] at ih
        simp [← ih]
      · next l ls hls =>
        rw [hls] at ih
        simp [← ih]

/-- A line that is ended by a line feed is the first one. -/
theorem lines_append (h : '\n' ∉ l) (s : List Char) :
    lines (l ++ '\n' :: s) = (l ++ ['\n']) :: lines s := by
  induction l with
  | nil => rw [List.nil_append, lines, if_pos rfl, List.nil_append]
  | cons c l ih =>
    obtain ⟨hc, hl⟩ : '\n' ≠ c ∧ '\n' ∉ l := by simpa using h
    rw [List.cons_append, lines, if_neg hc.symm, ih hl]
    rfl

/-- What comes after the last line feed is a line of its own, unless there is nothing. -/
theorem lines_of_not_mem (h : '\n' ∉ l) (hne : l ≠ []) : lines l = [l] := by
  induction l with
  | nil => exact (hne rfl).elim
  | cons c l ih =>
    obtain ⟨hc, hl⟩ : '\n' ≠ c ∧ '\n' ∉ l := by simpa using h
    rw [lines, if_neg hc.symm]
    cases l with
    | nil => rfl
    | cons d l => rw [ih hl (by simp)]

theorem takeBytes_append (s t : List Char) : takeBytes (byteLength s) (s ++ t) = some s := by
  induction s with
  | nil => simp [takeBytes]
  | cons c s ih =>
    obtain ⟨n, hn⟩ : ∃ n, byteLength (c :: s) = n + 1 :=
      Nat.exists_eq_succ_of_ne_zero fun h => List.cons_ne_nil c s (byteLength_eq_zero.1 h)
    have hsize : c.utf8Size + byteLength s = n + 1 := by simpa using hn
    rw [hn, List.cons_append, takeBytes, if_pos (by omega), ← hsize, Nat.add_sub_cancel_left, ih]
    rfl

theorem lastLine_unlines (ls : List (List Char)) (hl : '\n' ∉ l) :
    lastLine (unlines ls ++ l) = l := by
  have hline : ∀ c ∈ l.reverse, decide (c ≠ '\n') = true := by
    intro c hc
    rw [List.mem_reverse] at hc
    exact decide_eq_true fun h => hl (h ▸ hc)
  rw [lastLine, List.reverse_append, List.takeWhile_append_of_pos hline]
  obtain rfl | ⟨ls, l', rfl⟩ := ls.eq_nil_or_concat <;> simp

@[simp] theorem trimEnd_newline (s : List Char) : trimEnd (s ++ ['\n']) = trimEnd s := by
  have hblank : isBlank '\n' = true := by decide
  simp [trimEnd, hblank]

theorem takeWhile_line {right below : List Char} (hright : '\n' ∉ right)
    (hbelow : below = [] ∨ ∃ rest, below = '\n' :: rest) :
    (right ++ below).takeWhile (· ≠ '\n') = right := by
  have hline : ∀ c ∈ right, decide (c ≠ '\n') = true :=
    fun c hc => decide_eq_true fun h => hright (h ▸ hc)
  rw [List.takeWhile_append_of_pos hline]
  obtain rfl | ⟨rest, rfl⟩ := hbelow <;> simp

/-- The line of a place, and where the place is on it, are determined by the text. -/
theorem Around.line_unique {a b : Around} (htext : a.text = b.text)
    (hplace : byteLength a.before = byteLength b.before) :
    a.before = b.before ∧ a.left = b.left ∧ a.right = b.right := by
  have hbefore : a.before = b.before := by
    have h := takeBytes_append a.before (a.right ++ a.below)
    rw [← text, htext, hplace, text, takeBytes_append] at h
    exact (Option.some.inj h).symm
  have hafter : a.right ++ a.below = b.right ++ b.below := by
    rw [text, text, hbefore] at htext
    exact List.append_cancel_left htext
  refine ⟨hbefore, ?_, ?_⟩
  · rw [← lastLine_unlines a.above a.left_on_line, ← lastLine_unlines b.above b.left_on_line]
    exact congrArg lastLine hbefore
  · rw [← takeWhile_line a.right_on_line a.below_starts, hafter,
      takeWhile_line b.right_on_line b.below_starts]

end Text

namespace Report

open Text (Around byteLength unlines)

theorem expandTabs_append (s t : List Char) :
    expandTabs (s ++ t) = expandTabs s ++ expandTabs t := by
  simp [expandTabs]

namespace Position

variable {number offset : Nat}

/-- A byte past the end is on none of the lines. -/
theorem among_eq_none {ls : List (List Char)} (h : byteLength ls.flatten ≤ offset) :
    among number offset ls = none := by
  induction ls generalizing number offset with
  | nil => rfl
  | cons l ls ih =>
    simp only [List.flatten_cons, Text.byteLength_append] at h
    rw [among, if_pos (by omega)]
    exact ih (by omega)

/-- The lines above are passed over and counted. -/
theorem among_unlines {above : List (List Char)} (h : ∀ l ∈ above, '\n' ∉ l) (s : List Char) :
    among number (byteLength (unlines above) + offset) (Text.lines (unlines above ++ s)) =
      among (number + above.length) offset (Text.lines s) := by
  induction above generalizing number with
  | nil => simp
  | cons l above ih =>
    obtain ⟨hl, habove⟩ := List.forall_mem_cons.1 h
    have hskip : byteLength (unlines (l :: above)) + offset =
        byteLength (l ++ ['\n']) + (byteLength (unlines above) + offset) := by simp; omega
    rw [Text.unlines_cons, List.append_assoc, List.cons_append, Text.lines_append hl,
      among, ← Text.unlines_cons, hskip,
      if_pos (Nat.le_add_right _ _), Nat.add_sub_cancel_left, ih habove, List.length_cons]
    congr 1
    omega

/-- The line of a place is found with the line feed that ends it, if there is one. -/
theorem among_line (number : Nat) {left right below : List Char} (hleft : '\n' ∉ left)
    (hright : '\n' ∉ right) (hbelow : below = [] ∨ ∃ rest, below = '\n' :: rest)
    (hne : right ++ below ≠ []) :
    ∃ feed, (feed = [] ∨ feed = ['\n']) ∧
      among number (byteLength left) (Text.lines (left ++ (right ++ below))) =
        some ⟨number, left ++ (right ++ feed), byteLength left⟩ := by
  have hline : '\n' ∉ left ++ right := by simp [hleft, hright]
  obtain rfl | ⟨rest, rfl⟩ := hbelow
  · have hpos : 0 < byteLength right :=
      Nat.pos_of_ne_zero fun h => hne (by simp [Text.byteLength_eq_zero.1 h])
    refine ⟨[], .inl rfl, ?_⟩
    rw [List.append_nil, Text.lines_of_not_mem hline (by simpa using fun _ => hne), among,
      if_neg (by simp; omega)]
  · refine ⟨['\n'], .inr rfl, ?_⟩
    have hpos : 0 < byteLength ['\n'] := by decide
    rw [← List.append_assoc, Text.lines_append hline, among, List.append_assoc,
      if_neg (by simp only [Text.byteLength_append]; omega)]

end Position

/-- The rows of a report: the message with the place, an empty line, the line of the source, and
carets below it. The last three are to the right of a margin for the number of the line. -/
def rows (number offset : Nat) (message : String) (shown : List Char) (blanks carets : Nat) :
    List (List Char) :=
  let number := Nat.toDigits 10 number
  let margin := List.replicate number.length ' '
  ["[".toList ++ number ++ ":".toList ++ Nat.toDigits 10 offset ++
    "] error: ".toList ++ message.toList, margin ++ " |".toList,
    number ++ " | ".toList ++ shown,
    margin ++ " | ".toList ++ List.replicate blanks ' ' ++ List.replicate carets '^']

theorem toList_toString (n : Nat) : (toString n).toList = Nat.toDigits 10 n := String.toList_ofList

theorem length_toString (n : Nat) : (toString n).length = (Nat.toDigits 10 n).length := by
  rw [← String.length_toList, toList_toString]

theorem toList_page (number offset : Nat) (message : String) (shown : List Char)
    (blanks carets : Nat) :
    (page number offset message shown blanks carets).toList =
      unlines (rows number offset message shown blanks carets) := by
  have hrule : " |\n".toList = " |".toList ++ ['\n'] := by decide +kernel
  have hfeed : "\n".toList = ['\n'] := by decide +kernel
  unfold page rows unlines
  simp only [String.toList_append, String.toList_ofList, toList_toString, length_toString, hrule,
    hfeed, List.flatMap_cons, List.flatMap_nil, List.append_assoc, List.append_nil]

/-- The carets are the last thing that is printed. -/
theorem unlines_rows (number offset : Nat) (message : String) (shown : List Char)
    (blanks carets : Nat) :
    unlines (rows number offset message shown blanks carets) =
      (unlines (rows number offset message shown blanks 0)).dropLast ++
        List.replicate carets '^' ++ ['\n'] := by
  unfold rows unlines
  simp only [List.flatMap_cons, List.flatMap_nil, List.append_nil, List.replicate_zero,
    ← List.append_assoc, List.dropLast_concat]

/-- A place between the characters of its line can be shown. -/
theorem render_eq (measure : List Char → Nat) (number width : Nat) (message : String)
    (left rest : List Char) :
    let shown := Text.trimEnd (expandTabs (left ++ rest))
    render measure ⟨number, left ++ rest, byteLength left⟩ width message =
      some (page number (byteLength left) message shown (measure (expandTabs left))
        (min width (max (byteLength shown - measure (expandTabs left)) 1))) := by
  simp [render, Position.column, Position.shown, Text.takeBytes_append]

/-- The number of carets below a line: one for each byte, but no more than the line has bytes from
the place on, and at least one. At the end of the source there is one. -/
def carets (span : Span) (size : Nat) (shown : List Char) (blanks : Nat) : Nat :=
  if span.start < size then
    min (max (span.stop - span.start) 1) (max (byteLength shown - blanks) 1) else 1

section

variable (span : Span) (size : Nat) (shown : List Char) (blanks : Nat)

theorem carets_pos : 0 < carets span size shown blanks := by
  unfold carets
  split <;> omega

variable {span size shown blanks}

theorem add_carets_le :
    1 < carets span size shown blanks → blanks + carets span size shown blanks ≤
      byteLength shown := by
  unfold carets
  split <;> omega

/-- The carets fit below a line of so many columns if there are columns for all the bytes that they
reach to. -/
theorem carets_fit_iff {columns : Nat} :
    (1 < carets span size shown blanks → blanks + carets span size shown blanks ≤ columns) ↔
      (span.start < size → 1 < span.stop - span.start → blanks + 1 < byteLength shown →
        min (blanks + (span.stop - span.start)) (byteLength shown) ≤ columns) := by
  unfold carets
  split <;> omega

end

/-- Before the end of the text, the line of a place is found. -/
theorem Position.among_around (a : Around) (h : byteLength a.before < byteLength a.text) :
    ∃ feed, (feed = [] ∨ feed = ['\n']) ∧
      Position.among 1 (byteLength a.before) (Text.lines a.text) =
      some ⟨a.above.length + 1, a.left ++ (a.right ++ feed), byteLength a.left⟩ := by
  have hne : a.right ++ a.below ≠ [] := by
    intro hnil
    rw [a.byteLength_text, hnil] at h
    exact Nat.lt_irrefl _ h
  obtain ⟨feed, hfeed, hfound⟩ :=
    Position.among_line (1 + a.above.length) a.left_on_line a.right_on_line a.below_starts hne
  refine ⟨feed, hfeed, ?_⟩
  rw [Around.text, Around.before, Text.byteLength_append, List.append_assoc,
    Position.among_unlines a.above_lines, hfound, Nat.add_comm]

/-- At the end of the text, there is nothing to the right. -/
theorem Position.atEnd_around (a : Around) (h : byteLength a.text ≤ byteLength a.before) :
    a.right = [] ∧ Position.atEnd a.text = ⟨a.above.length + 1, a.left, byteLength a.left⟩ := by
  obtain ⟨hright, hbelow⟩ : a.right = [] ∧ a.below = [] := by
    rw [← List.append_eq_nil_iff, ← Text.byteLength_eq_zero]
    have := a.byteLength_text
    omega
  have htext : a.text = a.before := by rw [Around.text, hright, hbelow]; simp
  refine ⟨hright, ?_⟩
  rw [Position.atEnd, htext, a.count_before, Around.before,
    Text.lastLine_unlines a.above a.left_on_line]

/-- What is shown for a span that starts at a given place, or past the end of the source. -/
theorem atSpan_eq (measure : List Char → Nat) {source : String} {span : Span}
    (message : String) {a : Around} (htext : a.text = source.toList)
    (hplace : byteLength a.before = min span.start source.utf8ByteSize) :
    let shown := Text.trimEnd (expandTabs (a.left ++ a.right))
    let blanks := measure (expandTabs a.left)
    atSpan measure source span message =
      some (page (a.before.count '\n' + 1) (byteLength a.left) message shown blanks
        (carets span source.utf8ByteSize shown blanks)) := by
  have hsize : source.utf8ByteSize = byteLength a.text := by rw [htext, Text.utf8ByteSize_eq]
  dsimp only
  rw [a.count_before, atSpan, ← htext]
  by_cases hstart : span.start < source.utf8ByteSize
  · rw [Nat.min_eq_left (Nat.le_of_lt hstart)] at hplace
    obtain ⟨feed, hfeed, hamong⟩ := Position.among_around a (by omega)
    have hshown : Text.trimEnd (expandTabs (a.left ++ (a.right ++ feed))) =
        Text.trimEnd (expandTabs (a.left ++ a.right)) := by
      obtain rfl | rfl := hfeed
      · rw [List.append_nil]
      · rw [← List.append_assoc, expandTabs_append _ ['\n']]
        exact Text.trimEnd_newline _
    rw [← hplace, hamong, carets, if_pos hstart, ← hshown, hplace]
    exact render_eq measure _ _ message a.left (a.right ++ feed)
  · obtain ⟨hright, hend⟩ := Position.atEnd_around a (by omega)
    have hamong : Position.among 1 span.start (Text.lines a.text) = none :=
      Position.among_eq_none (by rw [Text.flatten_lines]; omega)
    have hrender := render_eq measure (a.above.length + 1) 1 message a.left []
    have hone (k : Nat) : min 1 (max k 1) = 1 := by omega
    rw [hamong, carets, if_neg hstart, hright]
    simpa only [hend, hone, List.append_nil] using hrender

end Report

open Text (Around byteLength unlines)

/-- Reports show where an error is. For every span that starts between two characters of the
source or past its end, there is a report. With the text before the start of the span, it gives the
number of the line and the bytes of the line before the place; it shows the line, and below it as
many blanks as there are columns before the place, and then carets. -/
theorem reports_locate_errors (measure : List Char → Nat) (source : String) (span : Span)
    (message : String)
    (h : String.Pos.Raw.IsValid source ⟨span.start⟩ ∨ source.utf8ByteSize ≤ span.start) :
    ∃ a : Around, a.text = source.toList ∧
      byteLength a.before = min span.start source.utf8ByteSize ∧
      ∃ report carets, Report.atSpan measure source span message = some report ∧ 0 < carets ∧
        report.toList = unlines (Report.rows (a.before.count '\n' + 1)
          (byteLength a.before - byteLength (unlines a.above)) message
          (Text.trimEnd (Report.expandTabs (a.left ++ a.right)))
          (measure (Report.expandTabs a.left)) carets) := by
  obtain ⟨a, htext, hplace⟩ := Around.exists_at h
  refine ⟨a, htext, hplace, ?_⟩
  rw [a.byteLength_left]
  exact ⟨_, _, Report.atSpan_eq measure message htext hplace, Report.carets_pos _ _ _ _,
    Report.toList_page _ _ _ _ _ _⟩

namespace TabbedLine

/-- The second line has a tab, and characters of two and of three bytes before `x`. -/
def text : String := "// é\n\té日 x\t\n"

def start : Around where
  above := ["// é".toList]
  left := "\té日 ".toList
  right := "x\t".toList
  below := ['\n']
  above_lines := by decide +kernel
  left_on_line := by decide +kernel
  right_on_line := by decide +kernel
  below_starts := .inr ⟨[], rfl⟩

theorem isValid_start : String.Pos.Raw.IsValid text ⟨13⟩ :=
  Text.isValid_iff.2
    ⟨start.before, start.right ++ start.below, by decide +kernel, by decide +kernel⟩

end TabbedLine

open TabbedLine in
/-- The tab is three columns, and the others are one and two: `x` stands below seven columns, and
after seven bytes. -/
theorem tabbed_line_located : String.Pos.Raw.IsValid text ⟨13⟩ ∧
    ∃ report carets, Report.atSpan Text.width text ⟨13, 14⟩ "x" = some report ∧ 0 < carets ∧
      report.toList = "[2:7] error: x\n  |\n2 |    é日 x\n  |        ".toList ++
        List.replicate carets '^' ++ ['\n'] := by
  obtain ⟨a, htext, hplace, report, carets, hreport, hcarets, hrows⟩ :=
    reports_locate_errors Text.width text ⟨13, 14⟩ "x" (.inl isValid_start)
  have hstart : a.text = start.text := by rw [htext]; decide +kernel
  have hbytes : byteLength a.before = byteLength start.before := by rw [hplace]; decide +kernel
  obtain ⟨hbefore, hleft, hright⟩ := Around.line_unique hstart hbytes
  have hshown : Text.trimEnd (Report.expandTabs (a.left ++ a.right)) = "   é日 x".toList := by
    rw [hleft, hright]; decide +kernel
  have hblanks : Text.width (Report.expandTabs a.left) = 7 := by rw [hleft]; decide +kernel
  have hnumber : a.before.count '\n' + 1 = 2 := by rw [hbefore]; decide +kernel
  have hoffset : byteLength a.before - byteLength (unlines a.above) = 7 := by
    rw [a.byteLength_left, hleft]; decide +kernel
  have hrest : (unlines (Report.rows 2 7 "x" "   é日 x".toList 7 0)).dropLast =
      "[2:7] error: x\n  |\n2 |    é日 x\n  |        ".toList := by decide +kernel
  rw [hshown, hblanks, hnumber, hoffset, Report.unlines_rows, hrest] at hrows
  exact ⟨isValid_start, report, carets, hreport, hcarets, hrows⟩

/-- Carets stop where the bytes of the line stop. The last row that is printed has at least one. If
it has more, then its blanks and carets together are no more than the bytes of the line that is
shown. They fit below it if and only if it takes up as many columns as the bytes that the carets
reach to. -/
theorem carets_stop_with_bytes_of_line (measure : List Char → Nat) (source : String) (span : Span)
    (message : String)
    (h : String.Pos.Raw.IsValid source ⟨span.start⟩ ∨ source.utf8ByteSize ≤ span.start) :
    ∃ a : Around, a.text = source.toList ∧
      byteLength a.before = min span.start source.utf8ByteSize ∧
      ∃ report shown blanks carets, Report.atSpan measure source span message = some report ∧
        shown = Text.trimEnd (Report.expandTabs (a.left ++ a.right)) ∧
        blanks = measure (Report.expandTabs a.left) ∧
        carets = Report.carets span source.utf8ByteSize shown blanks ∧
        report.toList = unlines (Report.rows (a.before.count '\n' + 1) (byteLength a.left) message
          shown blanks carets) ∧
        1 ≤ carets ∧ (1 < carets → blanks + carets ≤ byteLength shown) ∧
        ((1 < carets → blanks + carets ≤ measure shown) ↔
          (span.start < source.utf8ByteSize → 1 < span.stop - span.start →
            blanks + 1 < byteLength shown →
            min (blanks + (span.stop - span.start)) (byteLength shown) ≤ measure shown)) := by
  obtain ⟨a, htext, hplace⟩ := Around.exists_at h
  exact ⟨a, htext, hplace, _, _, _, _, Report.atSpan_eq measure message htext hplace, rfl, rfl, rfl,
    Report.toList_page _ _ _ _ _ _, Report.carets_pos _ _ _ _, Report.add_carets_le,
    Report.carets_fit_iff⟩

namespace AccentedPair

/-- Each part of the pair is shown in one column less than it has bytes. -/
def text : String := "compute cons(\"é\", \"é\")"

def failure : Failure := ⟨.cannotInferPair, some ⟨8, 24⟩, []⟩

def printed : String :=
  "[1:8] error: elaboration error: cannot infer the type of a pair\n" ++
  "  |\n" ++
  "1 | compute cons(\"é\", \"é\")\n" ++
  "  |         ^^^^^^^^^^^^^^^^\n"

def start : Around where
  above := []
  left := "compute ".toList
  right := "cons(\"é\", \"é\")".toList
  below := []
  above_lines := by simp
  left_on_line := by decide +kernel
  right_on_line := by decide +kernel
  below_starts := .inl rfl

theorem isValid_start : String.Pos.Raw.IsValid text ⟨8⟩ :=
  Text.isValid_iff.2
    ⟨start.before, start.right ++ start.below, by decide +kernel, by decide +kernel⟩

end AccentedPair

open AccentedPair in
/-- The carets go on for two columns after the end of the line. -/
theorem accented_pair_overshot : String.Pos.Raw.IsValid text ⟨8⟩ ∧
    failure.report text = some printed ∧ Text.width text.toList = 22 ∧ 22 < 8 + 16 := by
  obtain ⟨a, htext, hplace, report, _, _, _, hreport, rfl, rfl, rfl, hrows, -, -, -⟩ :=
    carets_stop_with_bytes_of_line Text.width text ⟨8, 24⟩ failure.text (.inl isValid_start)
  have hstart : a.text = start.text := by rw [htext]; decide +kernel
  have hbytes : byteLength a.before = byteLength start.before := by rw [hplace]; decide +kernel
  obtain ⟨hbefore, hleft, hright⟩ := Around.line_unique hstart hbytes
  rw [hbefore, hleft, hright] at hrows
  have hprinted : report = printed := String.toList_inj.1 (hrows.trans (by decide +kernel))
  exact ⟨isValid_start, hprinted ▸ hreport, by decide +kernel, by decide⟩

end DependentClasses
