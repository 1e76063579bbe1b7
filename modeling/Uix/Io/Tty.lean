/-
The line discipline (`src/personality/tty.c`). `tty_poll` assembles a line from the characters of the keyboard, and
`tty_readline` hands it out once it is complete.

The line is seen as a list (`Tty.content`), on which a character acts as `lineStep` says (`pollChar_step`). The ghost
`typed` is what was typed since a line was last taken.

A backspace is looked at before `line_ready`, so it also takes characters from a complete line, the line feed first. A
line feed is stored only below the capacity, so a full line gets none.

- `pollChar_step`: the array and its length hold the list.
- `reached_inv`: after any calls, the list is what the characters typed make of it.
- `tty_line_delivered`: a line that is delivered is the edited text and a line feed just if the text leaves room for it
  and no backspace came after it.
- `tty_backspace_after_line`: "ab", a line feed and a backspace.
-/
import Mathlib

namespace Uix

open List Function

abbrev Byte := BitVec 8

namespace Tty

/-- `'\b'` -/
def bs : Byte := 0x08#8

/-- `'\n'` -/
def lf : Byte := 0x0A#8

/-- `'\r'` -/
def cr : Byte := 0x0D#8

/-- `LINE_MAX` -/
def lineMax : ℕ := 128

end Tty

open Tty

/-- the static variables of `tty.c`, and the characters it has sent to the console -/
structure Tty where
  line : Fin lineMax → Byte
  lineLen : ℕ
  lineReady : Bool
  echo : List Byte

namespace Tty

/-- `tty_init` -/
def ttyInit (s : Tty) : Tty := { s with lineLen := 0, lineReady := false }

/-- `console_putc`, for each character -/
def putc (s : Tty) (cs : List Byte) : Tty := { s with echo := s.echo ++ cs }

/-- `line[line_len++] = c`, below the capacity -/
def store (s : Tty) (c : Byte) (h : s.lineLen < lineMax - 1) : Tty :=
  { s with line := Function.update s.line ⟨s.lineLen, by omega⟩ c, lineLen := s.lineLen + 1 }

/-- the body of the loop of `tty_poll` -/
def pollChar (s : Tty) (c : Byte) : Tty :=
  let c := if c = cr then lf else c
  if c = bs then
    if 0 < s.lineLen then { s with lineLen := s.lineLen - 1 }.putc [bs, 0x20#8, bs] else s
  else if s.lineReady then s
  else if c = lf then
    { (if h : s.lineLen < lineMax - 1 then s.store lf h else s) with lineReady := true }.putc [lf]
  else if h : s.lineLen < lineMax - 1 then (s.store c h).putc [c]
  else s

/-- `tty_poll`, when `keyboard_read` gives `raw` -/
def ttyPoll (s : Tty) (raw : List Byte) : Tty := raw.foldl pollChar s

/-- `tty_readline`: the value returned and what was stored in `buf` -/
def ttyReadline (s : Tty) (len : BitVec 32) : ℕ × List Byte × Tty :=
  if !s.lineReady then (0, [], s) else
  let n := if (len - 1).toNat < s.lineLen then (len - 1).toNat else s.lineLen
  (n, (List.ofFn s.line).take n ++ [0], { s with lineLen := 0, lineReady := false })

/-! ## The line as a list -/

/-- the characters of the line -/
def content (s : Tty) : List Byte := (List.ofFn s.line).take s.lineLen

/-- the length stays below the size of the array -/
def Fits (s : Tty) : Prop := s.lineLen ≤ lineMax - 1

/-- one more character, if there is room -/
def append (l : List Byte) (c : Byte) : List Byte := if l.length < lineMax - 1 then l ++ [c] else l

/-- what a character does to a line -/
def lineStep (l : List Byte × Bool) (c : Byte) : List Byte × Bool :=
  if c = bs then (l.1.dropLast, l.2)
  else if l.2 then l
  else if c = cr ∨ c = lf then (append l.1 lf, true)
  else (append l.1 c, false)

section Line

variable {s : Tty} {c : Byte}

theorem content_length (h : s.Fits) : s.content.length = s.lineLen := by
  rw [Fits] at h
  rw [content, length_take, length_ofFn]
  simp only [lineMax] at *
  omega

theorem store_content (h : s.lineLen < lineMax - 1) : (s.store c h).content = s.content ++ [c] := by
  have hlt : s.lineLen < lineMax := by omega
  have hlen : s.lineLen < (List.ofFn s.line).length := by
    rw [length_ofFn]
    exact hlt
  have hset : List.ofFn (update s.line ⟨s.lineLen, hlt⟩ c) = (List.ofFn s.line).set s.lineLen c := by
    apply ext_getElem
    · rw [length_set, length_ofFn, length_ofFn]
    · intro i h1 h2
      rw [List.getElem_ofFn, getElem_set, List.getElem_ofFn, Function.update_apply]
      exact if_congr ⟨fun h => (Fin.mk.inj h).symm, fun h => Fin.ext h.symm⟩ rfl rfl
  change (List.ofFn (update s.line _ c)).take (s.lineLen + 1) = _
  rw [hset, take_add_one, take_set_of_le (Nat.le_refl _), getElem?_set_self hlen]
  rfl

theorem dropLast_content (h : s.Fits) : { s with lineLen := s.lineLen - 1 }.content = s.content.dropLast := by
  change (List.ofFn s.line).take (s.lineLen - 1) = s.content.dropLast
  rw [dropLast_eq_take, content_length h, content, take_take, Nat.min_eq_left (Nat.sub_le _ _)]

/-- the length is below the capacity when the list is -/
theorem append_content (h : s.Fits) : append s.content c =
    if hlt : s.lineLen < lineMax - 1 then (s.store c hlt).content else s.content := by
  rw [append, content_length h]
  split_ifs with hlt
  · exact (store_content hlt).symm
  · rfl

/-- **A character** does to the array what it does to the list. -/
theorem pollChar_step (h : s.Fits) (c : Byte) :
    (s.pollChar c).Fits ∧ ((s.pollChar c).content, (s.pollChar c).lineReady) = lineStep (s.content, s.lineReady) c := by
  have hcr : cr ≠ bs := by decide
  have hlf : lf ≠ bs := by decide
  have hstore : ∀ c, (if hlt : s.lineLen < lineMax - 1 then s.store c hlt else s).Fits := by
    intro c
    split_ifs with hlt
    · exact hlt
    · exact h
  unfold pollChar lineStep
  dsimp only
  by_cases hend : c = cr ∨ c = lf
  · -- both end the line
    have hc : (if c = cr then lf else c) = lf := by
      rcases hend with rfl | rfl
      · rfl
      · rfl
    have hne : c ≠ bs := by
      rcases hend with rfl | rfl
      · exact hcr
      · exact hlf
    rw [hc, if_neg hlf, if_neg hne, if_pos rfl, if_pos hend]
    cases hready : s.lineReady with
    | true =>
      simp only [if_true]
      exact ⟨h, Prod.ext rfl hready⟩
    | false =>
      refine ⟨hstore lf, Prod.ext ?_ rfl⟩
      simp only [Bool.false_eq_true, if_false]
      rw [append_content h]
      split_ifs with hlt
      · rfl
      · rfl
  · rw [if_neg (fun hc => hend (.inl hc)), if_neg hend, if_neg (fun hc : c = lf => hend (.inr hc))]
    split_ifs with hbs hpos hready hlt
    · refine ⟨show s.lineLen - 1 ≤ lineMax - 1 from Nat.le_trans (Nat.sub_le _ _) h, Prod.ext ?_ rfl⟩
      exact dropLast_content h
    · refine ⟨h, Prod.ext ?_ rfl⟩
      have hnil : s.content = [] := eq_nil_of_length_eq_zero (by rw [content_length h]; omega)
      change s.content = s.content.dropLast
      rw [hnil]
      rfl
    · exact ⟨h, rfl⟩
    · refine ⟨hlt, Prod.ext ?_ ?_⟩
      · change (s.store c hlt).content = append s.content c
        rw [append_content h, dif_pos hlt]
      · exact Bool.eq_false_iff.2 hready
    · refine ⟨h, Prod.ext ?_ (Bool.eq_false_iff.2 hready)⟩
      change s.content = append s.content c
      rw [append_content h, dif_neg hlt]

/-- **A poll** is a run of its characters. -/
theorem ttyPoll_run (h : s.Fits) (raw : List Byte) :
    (s.ttyPoll raw).Fits ∧ ((s.ttyPoll raw).content, (s.ttyPoll raw).lineReady) =
      raw.foldl lineStep (s.content, s.lineReady) := by
  induction raw generalizing s with
  | nil => exact ⟨h, rfl⟩
  | cons c raw ih =>
    obtain ⟨hfit, hstep⟩ := pollChar_step h c
    rw [foldl_cons, ← hstep]
    exact ih hfit

end Line

/-! ## What is typed -/

/-- the line is complete -/
def isEnd (c : Byte) : Bool := c = cr ∨ c = lf

/-- the reference edit: backspace deletes the character before it, characters beyond the capacity are ignored -/
def edit (text : List Byte) : List Byte :=
  text.foldl (fun l c => if c = bs then l.dropLast else append l c) []

/-- what was typed before the first CR or LF -/
def firstLine (typed : List Byte) : List Byte := typed.takeWhile (!isEnd ·)

/-- what was typed after it -/
def afterLine (typed : List Byte) : List Byte := (typed.dropWhile (!isEnd ·)).tail

section Typed

variable {l text rest : List Byte}

theorem mem_append_char {c d : Byte} (h : d ∈ append l c) : d ∈ l ∨ d = c := by
  unfold append at h
  split_ifs at h
  · exact (mem_append.1 h).imp_right mem_singleton.1
  · exact .inl h

/-- an edited text has only characters of the text -/
theorem mem_edit {d : Byte} (h : d ∈ edit text) : d ∈ text := by
  have hrun : ∀ (text l : List Byte), d ∈ text.foldl (fun l c => if c = bs then l.dropLast else append l c) l →
      d ∈ l ∨ d ∈ text := by
    intro text
    induction text with
    | nil => exact fun l h => .inl h
    | cons c text ih =>
      intro l h
      rw [foldl_cons] at h
      rcases ih _ h with h | h
      · split_ifs at h
        · exact .inl (dropLast_subset l h)
        · exact (mem_append_char h).imp_right fun hc => mem_cons.2 (.inl hc)
      · exact .inr (mem_cons_of_mem _ h)
  exact (hrun text [] h).resolve_left not_mem_nil

/-- before the end of a line it is edited -/
theorem lineStep_text (l : List Byte) (h : ∀ c ∈ text, isEnd c = false) :
    text.foldl lineStep (l, false) =
      (text.foldl (fun l c => if c = bs then l.dropLast else append l c) l, false) := by
  induction text generalizing l with
  | nil => rfl
  | cons c text ih =>
    obtain ⟨hc, h⟩ := forall_mem_cons.1 h
    have hend : ¬ (c = cr ∨ c = lf) := of_decide_eq_false hc
    have hstep : lineStep (l, false) c = (if c = bs then l.dropLast else append l c, false) := by
      by_cases hbs : c = bs
      · rw [lineStep, if_pos hbs, if_pos hbs]
      · simp only [lineStep, if_neg hbs, if_neg hend, Bool.false_eq_true, if_false]
    rw [foldl_cons, foldl_cons, hstep, ih _ h]

/-- after its end, backspaces take characters from it -/
theorem lineStep_rest (l rest : List Byte) :
    rest.foldl lineStep (l, true) = (l.take (l.length - rest.count bs), true) := by
  induction rest generalizing l with
  | nil => rw [count_nil, Nat.sub_zero, take_length]; rfl
  | cons c rest ih =>
    rw [foldl_cons]
    by_cases hbs : c = bs
    · have hstep : lineStep (l, true) c = (l.dropLast, true) := by rw [lineStep, if_pos hbs]
      rw [hstep, ih, hbs, count_cons_self, length_dropLast, dropLast_eq_take, take_take]
      exact congrArg (fun n => (l.take n, true)) (by omega)
    · have hstep : lineStep (l, true) c = (l, true) := by rw [lineStep, if_neg hbs, if_pos rfl]
      rw [hstep, ih, count_cons_of_ne hbs]

/-- the first line, the character that ends it, and the rest -/
theorem typed_split {typed : List Byte} (h : typed.any isEnd = true) :
    ∃ d, typed = firstLine typed ++ d :: afterLine typed ∧ isEnd d = true ∧ ∀ c ∈ firstLine typed, isEnd c = false := by
  induction typed with
  | nil => exact absurd h (by decide)
  | cons c typed ih =>
    cases hend : isEnd c with
    | true =>
      refine ⟨c, ?_, hend, ?_⟩
      · simp [firstLine, afterLine, hend]
      · simp [firstLine, hend]
    | false =>
      rw [any_cons, hend, Bool.false_or] at h
      obtain ⟨d, hsplit, hd, htext⟩ := ih h
      have hfirst : firstLine (c :: typed) = c :: firstLine typed := by simp [firstLine, hend]
      have hafter : afterLine (c :: typed) = afterLine typed := by simp [afterLine, hend]
      refine ⟨d, ?_, hd, ?_⟩
      · rw [hfirst, hafter, cons_append, ← hsplit]
      · rw [hfirst]
        exact forall_mem_cons.2 ⟨hend, htext⟩

/-- **What the characters typed make of an empty line.** -/
theorem lineStep_typed (typed : List Byte) :
    typed.foldl lineStep ([], false) =
      if typed.any isEnd then
        ((append (edit (firstLine typed)) lf).take
          ((append (edit (firstLine typed)) lf).length - (afterLine typed).count bs), true)
      else (edit typed, false) := by
  split_ifs with hany
  · obtain ⟨d, hsplit, hdend, htext⟩ := typed_split hany
    have hstep : lineStep (edit (firstLine typed), false) d = (append (edit (firstLine typed)) lf, true) := by
      have hd' : d = cr ∨ d = lf := of_decide_eq_true hdend
      have hbs : d ≠ bs := by
        rcases hd' with rfl | rfl
        · decide
        · decide
      unfold lineStep
      rw [if_neg hbs, if_pos hd']
      rfl
    conv_lhs => rw [hsplit]
    rw [foldl_append, foldl_cons, lineStep_text [] htext]
    change (afterLine typed).foldl lineStep (lineStep (edit (firstLine typed), false) d) = _
    rw [hstep, lineStep_rest]
  · refine lineStep_text [] fun c hc => ?_
    rw [Bool.eq_false_iff]
    exact fun hend => hany (any_eq_true.2 ⟨c, hc, hend⟩)

end Typed

/-! ## Calls -/

/-- a call of one of the two functions; the characters of a poll are those in the keyboard buffer -/
inductive Call where
  | poll (raw : List Byte)
  | readline (len : BitVec 32)
  deriving Repr

/-- the terminal, and what was typed since a line was last taken from it -/
structure Session where
  tty : Tty
  typed : List Byte

namespace Session

def boot (tty : Tty) : Session := ⟨tty.ttyInit, []⟩

def step (s : Session) : Call → Session
  | .poll raw => ⟨s.tty.ttyPoll raw, s.typed ++ raw⟩
  | .readline len => ⟨(s.tty.ttyReadline len).2.2, if s.tty.lineReady then [] else s.typed⟩

def run (s : Session) (calls : List Call) : Session := calls.foldl step s

/-- the line is what the characters typed make of it -/
structure Inv (s : Session) : Prop where
  fits : s.tty.Fits
  line : (s.tty.content, s.tty.lineReady) = s.typed.foldl lineStep ([], false)

theorem boot_inv (tty : Tty) : (boot tty).Inv := ⟨Nat.zero_le _, rfl⟩

theorem step_inv {s : Session} (h : s.Inv) (call : Call) : (s.step call).Inv := by
  cases call with
  | poll raw =>
    obtain ⟨hfit, hrun⟩ := ttyPoll_run h.fits raw
    refine ⟨hfit, ?_⟩
    rw [h.line] at hrun
    change _ = (s.typed ++ raw).foldl lineStep ([], false)
    rw [foldl_append]
    exact hrun
  | readline len =>
    cases hready : s.tty.lineReady with
    | true =>
      have htake : s.step (.readline len) = ⟨{ s.tty with lineLen := 0, lineReady := false }, []⟩ := by
        simp only [step, ttyReadline, hready, Bool.not_true, Bool.false_eq_true, if_false, if_true]
      rw [htake]
      exact ⟨Nat.zero_le _, rfl⟩
    | false =>
      have hnone : s.step (.readline len) = s := by
        simp only [step, ttyReadline, hready, Bool.not_false, Bool.false_eq_true, if_false, if_true]
      rw [hnone]
      exact h

/-- **After any calls** the line is what the characters typed make of it. -/
theorem reached_inv (tty : Tty) (calls : List Call) : ((boot tty).run calls).Inv := by
  have hrun : ∀ s : Session, s.Inv → (s.run calls).Inv := by
    induction calls with
    | nil => exact fun s h => h
    | cons call calls ih => exact fun s h => ih _ (step_inv h call)
  exact hrun _ (boot_inv tty)

end Session

/-- what a reader is to get: the first line edited, a line feed and a NUL -/
structure Delivered (typed : List Byte) (n : ℕ) (buf : List Byte) : Prop where
  text : buf = edit (firstLine typed) ++ [lf, 0]
  length : n = (edit (firstLine typed)).length + 1
  one : lf ∉ edit (firstLine typed)

/-- there is room for the line feed, and no backspace came after it -/
structure Intact (typed : List Byte) : Prop where
  room : (edit (firstLine typed)).length < lineMax - 1
  after : bs ∉ afterLine typed

theorem lf_notMem_edit (typed : List Byte) : lf ∉ edit (firstLine typed) := by
  intro h
  have hmem := mem_edit h
  have hnot : ∀ c ∈ firstLine typed, isEnd c = false := by
    intro c hc
    have := all_takeWhile (p := fun c => !isEnd c) (l := typed)
    simpa using all_eq_true.1 this c hc
  exact absurd (hnot lf hmem) (by decide)

/-- what `tty_readline` gives out of a complete line -/
theorem readline_ready {s : Session} (h : s.Inv) (hready : s.tty.lineReady = true) {len : BitVec 32}
    (hlen : 129 ≤ len.toNat) :
    s.tty.ttyReadline len =
    (s.tty.content.length, s.tty.content ++ [0], { s.tty with lineLen := 0, lineReady := false }) := by
  have hlen1 : (len - 1).toNat = len.toNat - 1 :=
    BitVec.toNat_sub_of_le (BitVec.le_def.2 (Nat.le_trans (by decide) hlen))
  have hfits := h.fits
  rw [Fits, lineMax] at hfits
  rw [ttyReadline, hready, content_length h.fits]
  simp only [Bool.not_true, Bool.false_eq_true, if_false, hlen1]
  rw [if_neg (by omega)]
  rfl

/-- **Lines that are delivered.** After any calls: a line that `tty_readline` delivers is the edited text of the first
line typed since the last one was taken, followed by its only line feed, just if the text leaves room for the line feed
and no backspace came after it. Such a line is delivered. -/
theorem tty_line_delivered (tty : Tty) (calls : List Call) (len : BitVec 32) (hlen : 129 ≤ len.toNat) (n : ℕ)
    (buf : List Byte) (t : Tty) (hread : ((Session.boot tty).run calls).tty.ttyReadline len = (n, buf, t)) :
    (n ≠ 0 → (Delivered ((Session.boot tty).run calls).typed n buf ↔ Intact ((Session.boot tty).run calls).typed)) ∧
      (((Session.boot tty).run calls).tty.lineReady = true → Intact ((Session.boot tty).run calls).typed → n ≠ 0) := by
  generalize hs : (Session.boot tty).run calls = s at hread ⊢
  have hinv : s.Inv := hs ▸ Session.reached_inv tty calls
  cases hready : s.tty.lineReady with
  | false =>
    rw [ttyReadline, hready] at hread
    refine ⟨fun hn => absurd (congrArg Prod.fst hread).symm hn, fun hc => absurd hc (by decide)⟩
  | true =>
    rw [readline_ready hinv hready hlen, Prod.mk.injEq, Prod.mk.injEq] at hread
    obtain ⟨rfl, rfl, -⟩ := hread
    have hline := hinv.line
    rw [hready, lineStep_typed] at hline
    split_ifs at hline with hany
    · rw [Prod.mk.injEq] at hline
      have hone := lf_notMem_edit s.typed
      have hcount : (afterLine s.typed).count bs = 0 ↔ bs ∉ afterLine s.typed := List.count_eq_zero
      have hfull : Intact s.typed → s.tty.content = edit (firstLine s.typed) ++ [lf] := by
        rintro ⟨hroom, hafter⟩
        rw [hline.1, hcount.2 hafter, append, if_pos hroom, Nat.sub_zero, List.take_length]
      refine ⟨fun hn => ⟨fun D => ?_, fun I => ?_⟩, fun _ I => ?_⟩
      · have htext : s.tty.content = edit (firstLine s.typed) ++ [lf] := by
          have := D.text
          rw [show edit (firstLine s.typed) ++ [lf, 0] = (edit (firstLine s.typed) ++ [lf]) ++ [0] by simp] at this
          exact List.append_cancel_right this
        have hlf : lf ∈ append (edit (firstLine s.typed)) lf := by
          refine List.mem_of_mem_take
            (i := (append (edit (firstLine s.typed)) lf).length - (afterLine s.typed).count bs) ?_
          rw [← hline.1, htext]
          exact List.mem_append_right _ (List.mem_singleton_self _)
        have hroom : (edit (firstLine s.typed)).length < lineMax - 1 := by
          by_contra hfull
          rw [append, if_neg hfull] at hlf
          exact hone hlf
        refine ⟨hroom, hcount.1 ?_⟩
        have hlength := congrArg List.length (hline.1.symm.trans htext)
        rw [append, if_pos hroom, List.length_take, List.length_append, List.length_singleton] at hlength
        omega
      · rw [hfull I]
        exact ⟨by simp, by simp, hone⟩
      · rw [hfull I, List.length_append, List.length_singleton]
        omega
    · rw [Prod.mk.injEq] at hline
      exact absurd hline.2 (by decide)

/-- the terminal at boot -/
def cleared : Tty := ⟨fun _ => 0, 0, false, []⟩

/-- of what was typed, a reader gets a line without a line feed -/
def NoLineFeed (typed : List Byte) : Prop :=
  (((Session.boot cleared).run [.poll typed]).tty.ttyReadline 129).1 ≠ 0 ∧
    lf ∉ (((Session.boot cleared).run [.poll typed]).tty.ttyReadline 129).2.1

/-- **A backspace after "ab" and a line feed** takes the line feed from the line; a line of 127 characters has none. -/
theorem tty_backspace_after_line :
    NoLineFeed [0x61#8, 0x62#8, lf, bs] ∧ NoLineFeed (List.replicate 127 0x61#8 ++ [lf]) := by
  refine ⟨?_, ?_⟩
  · exact ⟨by decide +kernel, by decide +kernel⟩
  · exact ⟨by decide +kernel, by decide +kernel⟩

/-- "ax", a backspace, "b" and a carriage return -/
theorem tty_edited_line : ∃ n buf t,
    ((Session.boot cleared).run [.poll [0x61#8, 0x78#8], .poll [bs, 0x62#8, cr]]).tty.ttyReadline 129 = (n, buf, t) ∧
    n = 3 ∧ Delivered [0x61#8, 0x78#8, bs, 0x62#8, cr] n buf := by
  refine ⟨_, _, _, rfl, by decide +kernel, ?_⟩
  exact ((tty_line_delivered cleared [.poll [0x61#8, 0x78#8], .poll [bs, 0x62#8, cr]] 129 (by decide) _ _ _ rfl).1
    (by decide +kernel)).2 ⟨by decide +kernel, by decide +kernel⟩

end Tty

end Uix
