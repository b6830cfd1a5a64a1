import BedrockCommand.Proofs.Argument.Values
import BedrockCommand.Proofs.Grammar.Plain
import BedrockCommand.Proofs.Grammar.Upgrade
import BedrockCommand.Proofs.Reader.Exact
import BedrockCommand.Proofs.Tokenize.Offsets
import Mathlib.Data.List.DropRight
/-!
The warnings of a text beside its tokens. Every warning is about one token, which has some text, so
that the places of the warnings increase, and the token is what the warning says.
-/
namespace BedrockCommand

variable {version : Version} {c d : Cursor} {before piece : List Char} {t : Token}
  {w : Option WarningKind}

def WarningKind.isPermission : WarningKind → Bool
  | noPermission _ => true
  | _ => false

/-- Whether a token is the keyword of one of the six commands that function files have no
permission for. -/
def Token.isRestricted (t : Token) : Bool :=
  t.kind = .command && ["deop", "op", "setmaxplayers", "whitelist", "save", "wsserver"].any
    (t.value = .command ·)

theorem Token.isRestricted_iff : t.isRestricted = true ↔
    t.kind = .command ∧ ∃ name ∈ Grammar.restricted, t.value = .command name := by
  simp [isRestricted, Grammar.restricted]

/-- A warning about a keyword, which names the command by the text that the keyword has in the
source, without the spaces at its end. -/
structure Warning.Names (text : String) (start : Position) (w : Warning) (t : Token) : Prop where
  span : w.span = t.span
  typed : let index := LineIndex.ofText text.toList start
    ∃ b e, index.offset? t.span.start = some b ∧ index.offset? t.span.stop = some e ∧
      w.kind = .noPermission
        (String.ofList (((text.toList.take e).drop b).rdropWhile (· = ' ')))

/-! ## What is reported with a warning -/

/-- A word is its text with spaces behind it, and does not end with a space itself. -/
theorem Reader.rdropWhile_of_word {typed : String} {behind : List Char} {p q : Position}
    (h : Reader.word ⟨piece ++ behind, p⟩ = (.ok typed, ⟨behind, q⟩)) :
    piece.rdropWhile (· = ' ') = typed.toList := by
  obtain ⟨_, e, hraw, h⟩ := bind_eq_ok.mp h
  obtain ⟨_, _, hend, h⟩ := bind_eq_ok.mp h
  obtain ⟨rfl, rfl⟩ := ok_inj h
  obtain ⟨cs, ⟨-, hplain, -⟩, hpast⟩ := readsText_rawWord.sound hraw
  obtain ⟨-, hspaces⟩ := argumentEnd_eq_ok.mp hend
  have hbehind : behind = e.rest.dropWhile (· = ' ') := by
    rw [show behind = e.skipSpaces.rest from congrArg Cursor.rest hspaces, e.rest_skipSpaces]
    rfl
  have hpiece : piece = cs ++ e.rest.takeWhile (· = ' ') := by
    have hrest : piece ++ behind = cs ++ e.rest := hpast.1
    rw [← List.takeWhile_append_dropWhile (p := (· = ' ')) (l := e.rest), ← hbehind,
      ← List.append_assoc] at hrest
    exact List.append_cancel_right hrest
  have hall : ∀ x ∈ (e.rest.takeWhile (· = ' ')).reverse, decide (x = ' ') = true := by
    intro x hx
    simpa using List.mem_takeWhile_imp (List.mem_reverse.mp hx)
  rw [hpiece, List.rdropWhile, List.reverse_append, List.dropWhile_append_of_pos hall,
    String.toList_ofList]
  refine List.rdropWhile_eq_self_iff.mpr fun hne hlast => ?_
  have hspace : cs.getLast hne = ' ' := by simpa using hlast
  exact absurd (hspace ▸ hplain _ (List.getLast_mem hne)) (by decide)

/-- A token with a warning is what the warning says. -/
theorem Reported.flags {k : WarningKind} (h : Reported version c t (some k) d) :
    k.Flags t.kind t.value := by
  generalize hw : some k = w' at h
  cases h with
  | argument a c hk => exact (a.flags_read hw.symm hk).2
  | error | comment => simp at hw
  | keyword hword hr =>
    split at hw
    · next hmem => exact Option.some.inj hw ▸ .restricted hmem _
    · simp at hw

/-- Only commands need permissions. -/
theorem WarningKind.Flags.isPermission_eq_false {k : WarningKind} {kind : TokenKind}
    {value : TokenValue} (h : k.Flags kind value) (hk : kind ≠ .command) :
    k.isPermission = false := by
  cases h with
  | restricted => exact absurd rfl hk
  | negative | data | outside => rfl

/-- A keyword has a warning if its command is restricted, and no other token has such a warning. -/
theorem Reported.permission_cases (h : Reported version c t w d) :
    (t.isRestricted = true ∧ ∃ typed, w = some (.noPermission typed) ∧
      Reader.word c = (.ok typed, d)) ∨
    t.isRestricted = false ∧ ∀ k ∈ w, k.isPermission = false := by
  cases h with
  | @argument a c kind hk =>
    have hne : kind ≠ .command := by
      rintro rfl
      simpa [hk, Reading.isArgument] using (a.proper_read c).kind
    exact .inr ⟨by simp [Token.isRestricted, hne], fun k hw =>
      (a.flags_read hw hk).2.isPermission_eq_false hne⟩
  | error | comment => exact .inr ⟨rfl, by simp⟩
  | @keyword typed _ _ _ hword hr =>
    by_cases hmem : Grammar.canonicalName typed ∈ Grammar.restricted
    · rw [if_pos hmem]
      exact .inl ⟨Token.isRestricted_iff.mpr ⟨rfl, _, hmem, rfl⟩, typed, rfl, hword⟩
    · rw [if_neg hmem]
      refine .inr ⟨eq_false_of_ne_true fun h => ?_, by simp⟩
      obtain ⟨-, name, hname, heq⟩ := Token.isRestricted_iff.mp h
      obtain rfl := TokenValue.command.inj heq
      exact hmem hname

/-! ## Tokens beside their warnings -/

/-- A token and the warning about it, if there is one. -/
structure Finding where
  token : Token
  warning : Option WarningKind

def Finding.warning? (f : Finding) : Option Warning :=
  f.warning.map fun k => ⟨k, f.token.span⟩

/-- The tokens and the warnings of a trace are those of a list of findings. -/
theorem Trace.exists_findings {free : Char → Prop} {es : List Event}
    (h : Trace version free c es d) : ∃ fs : List Finding,
      (Tokenized.ofEvents es).tokens = fs.map Finding.token ∧
      (Tokenized.ofEvents es).warnings = fs.filterMap Finding.warning? ∧
      ∀ f ∈ fs, ∃ before piece, OpenWhile version c before piece f.token f.warning := by
  induction h with
  | nil c => exact ⟨[], rfl, rfl, List.forall_mem_nil _⟩
  | @skip x rest p es d _ _ ih =>
    obtain ⟨fs, ht, hw, hopen⟩ := ih
    refine ⟨fs, ht, hw, fun f hf => ?_⟩
    obtain ⟨before, piece, h⟩ := hopen f hf
    exact ⟨_, piece, h.append_before [x]⟩
  | @token c c' d t w es ht ha _ ih =>
    obtain ⟨fs, htokens, hwarnings, hopen⟩ := ih
    obtain ⟨rest, p⟩ := c
    obtain ⟨rest', p'⟩ := c'
    obtain ⟨cs, hn, hr, hp⟩ := ha
    obtain rfl : rest = cs ++ rest' := hr
    obtain rfl : p' = p.after cs := hp
    refine ⟨⟨t, w⟩ :: fs, by simp [htokens], ?_, List.forall_mem_cons.mpr ⟨?_, fun f hf => ?_⟩⟩
    · rw [Tokenized.warnings_token, Tokenized.warnings_append, Tokenized.warnings_warningEvents,
        hwarnings]
      cases w <;> rfl
    · exact ⟨[], cs, rest', [], by simp, isHidden_nil, hn, ht⟩
    · obtain ⟨before, piece, h⟩ := hopen f hf
      exact ⟨_, piece, h.append_before cs⟩
  | notice n _ ih => exact ih
  | @json text blanks rest p es fs d hn hb hr _ _ ihi ih =>
    obtain ⟨inner, hti, hwi, hopeni⟩ := ihi
    obtain ⟨outer, hto, hwo, hopeno⟩ := ih
    refine ⟨inner ++ outer, by simp [hti, hto], ?_, fun f hf => ?_⟩
    · rw [Tokenized.warnings_append, List.filterMap_append, hwi, ← hwo]
      rfl
    rcases List.mem_append.mp hf with hf | hf
    · obtain ⟨before, piece, h⟩ := hopeni f hf
      rw [List.append_assoc]
      exact ⟨_, piece, h.append_hidden (fun h => hn (List.mem_append_left _ h))
        ⟨blanks, rest, rfl, hb, hr⟩⟩
    · obtain ⟨before, piece, h⟩ := hopeno f hf
      exact ⟨_, piece, h.append_before _⟩

/-- Of two findings of a trace the earlier one ends before the later one starts, and what is warned
about has text. So the warnings stand in the order of their places. -/
theorem pairwise_warnings {fs : List Finding}
    (ho : (fs.map Finding.token).Pairwise fun s t => s.span.stop ≤ t.span.start)
    (hlt : ∀ f ∈ fs, f.warning.isSome → f.token.span.start < f.token.span.stop) :
    (fs.filterMap Finding.warning?).Pairwise fun v w => v.span.start < w.span.start := by
  rw [List.pairwise_filterMap]
  refine List.Pairwise.imp_of_mem ?_ (List.pairwise_map.mp ho)
  intro f g hf _ hstop v hv w hw
  obtain ⟨k, hk, rfl⟩ := Option.map_eq_some_iff.mp hv
  obtain ⟨l, -, rfl⟩ := Option.map_eq_some_iff.mp hw
  exact Position.lt_of_lt_of_le (hlt f hf (by rw [hk]; rfl)) hstop

/-- No other token has the span of a token with text. -/
theorem LaidOut.filter_span {cs : List Char} {p : Position} {ts : List Token}
    (h : LaidOut cs p ts) (ht : t ∈ ts) (hlt : t.span.start < t.span.stop) :
    ts.filter (·.span = t.span) = [t] := by
  obtain ⟨above, below, rfl⟩ := List.append_of_mem ht
  obtain ⟨-, hbelow, habove⟩ := List.pairwise_append.mp h.ordered
  have hnone : above.filter (·.span = t.span) = [] := by
    refine List.filter_eq_nil_iff.mpr fun s hs heq => ?_
    have hle := habove s hs t (List.mem_cons_self ..)
    rw [of_decide_eq_true heq] at hle
    exact Position.not_le_of_lt hlt hle
  have hnone' : below.filter (·.span = t.span) = [] := by
    refine List.filter_eq_nil_iff.mpr fun s hs heq => ?_
    have hle := List.rel_of_pairwise_cons hbelow hs
    rw [of_decide_eq_true heq] at hle
    exact Position.not_le_of_lt hlt hle
  rw [List.filter_append, hnone, List.filter_cons_of_pos (by simp), hnone', List.nil_append]

/-- What is warned about has text. -/
theorem OpenWhile.start_lt_stop {k : WarningKind}
    (h : OpenWhile version c before piece t (some k)) : t.span.start < t.span.stop := by
  obtain ⟨behind, hidden, -, -, hn, hreported⟩ := id h
  rw [h.span]
  exact hreported.position_lt ⟨piece, hn, rfl, Position.after_append ..⟩

/-- The warning about a keyword names its text. -/
theorem OpenWhile.names {text : String} {start : Position} {typed : String}
    (h : OpenWhile version (.ofText text start) before piece t (some (.noPermission typed))) :
    Warning.Names text start ⟨.noPermission typed, t.span⟩ t := by
  obtain ⟨b, e, hb, he, -, -, behind, hidden, -, -, -, hreported⟩ := h.offsets
  rcases hreported.permission_cases with ⟨-, _, hw, hword⟩ | ⟨-, hw⟩
  · obtain rfl := WarningKind.noPermission.inj (Option.some.inj hw)
    refine ⟨rfl, b, e, hb, he, ?_⟩
    rw [Reader.rdropWhile_of_word hword, String.ofList_toList]
  · exact absurd (hw _ rfl) (by simp [WarningKind.isPermission])

/-- The warnings about permissions are about the restricted commands, one after another. -/
theorem forall₂_names {text : String} {start : Position} {fs : List Finding}
    (h : ∀ f ∈ fs, ∃ before piece,
      OpenWhile version (.ofText text start) before piece f.token f.warning) :
    List.Forall₂ (Warning.Names text start)
      ((fs.filterMap Finding.warning?).filter (·.kind.isPermission))
      ((fs.map Finding.token).filter Token.isRestricted) := by
  induction fs with
  | nil => exact .nil
  | cons f fs ih =>
    obtain ⟨⟨before, piece, hopen⟩, hfs⟩ := List.forall_mem_cons.mp h
    obtain ⟨t, w⟩ := f
    obtain ⟨behind, hidden, -, -, -, hreported⟩ := id hopen
    rcases hreported.permission_cases with ⟨hr, typed, rfl, hword⟩ | ⟨hr, hw⟩
    · rw [List.map_cons, List.filter_cons_of_pos hr]
      exact .cons hopen.names (ih hfs)
    · rw [List.map_cons, List.filter_cons_of_neg (by simp [hr])]
      cases w with
      | none => exact ih hfs
      | some k =>
        have hk : k.isPermission = false := hw k rfl
        rw [show (Finding.mk t (some k) :: fs).filterMap Finding.warning? =
          ⟨k, t.span⟩ :: fs.filterMap Finding.warning? from rfl,
          List.filter_cons_of_neg (by simp [hk])]
        exact ih hfs

/-! ## Data values of blocks -/

/-- An event that is no warning about the data value of a block. -/
def Event.IsNotBlockData : Event → Prop
  | .warning w => w.kind ≠ .blockData
  | _ => True

/-- Where blocks have no data values, no argument has a warning about one. -/
theorem Event.coversArguments_isNotBlockData {d : Dialect}
    (hd : d.blockSuffix ≠ some .dataOrStates) : CoversArguments d IsNotBlockData where
  errors _ _ := trivial
  argument _ _ _ _ _ := trivial
  warning {a} ha c w h span := by
    rintro rfl
    obtain ⟨kind, hk⟩ := a.exists_kind_read c
    have hw := (a.flags_read h hk).1
    cases a with
    | blockData => exact hd ha
    | _ => simp [Argument.warning?] at hw
  tooDeep _ := trivial
  json _ := trivial

namespace Command

variable {nested : Cursor → Step}

theorem only_closeCommand {s : Step} (h : s.Only Event.IsNotBlockData) :
    s.closeCommand.Only Event.IsNotBlockData := by
  refine h.settle.andThen fun d => ?_
  split
  · exact .sweep (fun _ _ => trivial) _ d
  · exact .done d

theorem only_body (hd : (Grammar.dialect version).blockSuffix ≠ some .dataOrStates)
    (hn : ∀ d, (nested d).Only Event.IsNotBlockData) (c : Cursor) :
    (body version nested c).Only Event.IsNotBlockData := by
  unfold body
  split
  · exact .andThen (.sweep (fun _ _ => trivial) _ c) .halt
  · next typed d hw =>
    simp only
    split
    · exact .andThen (.sweep (fun _ _ => trivial) _ c) .halt
    · next rule hr =>
      refine .andThen ?_ (Rule.only_run (Event.coversArguments_isNotBlockData hd) (fun _ => hn)
        (Rule.composed_command? hr).plain)
      rw [Step.keyword_ahead (Reader.ahead_word hw)]
      refine List.forall_mem_cons.mpr ⟨trivial, List.forall_mem_cons.mpr ⟨trivial, ?_⟩⟩
      refine Step.Only.warningEvents fun k hk => ?_
      split at hk
      · obtain rfl := Option.some.inj hk
        simp [Event.IsNotBlockData]
      · simp at hk

theorem only_read (hd : (Grammar.dialect version).blockSuffix ≠ some .dataOrStates) (depth : Nat)
    (c : Cursor) : (read version depth c).Only Event.IsNotBlockData := by
  induction depth generalizing c with
  | zero =>
    refine only_closeCommand (only_body hd (fun d => ?_) c)
    exact .andThen (.report trivial d) fun e => .andThen (.sweep (fun _ _ => trivial) _ e) .halt
  | succ depth ih => exact only_closeCommand (only_body hd ih c)

end Command

/-- From the version on in which blocks have states only, no data value of a block is warned
about. -/
theorem only_readLines (hd : (Grammar.dialect version).blockSuffix ≠ some .dataOrStates)
    (fuel : Nat) (c : Cursor) : (readLines version fuel c).Only Event.IsNotBlockData := by
  induction fuel generalizing c with
  | zero => exact .fail _ c
  | succ fuel ih =>
    unfold readLines
    split
    · exact .done c
    refine .andThen ?_ ih
    unfold readLine
    simp only
    split
    · exact .done _
    split
    · exact .token (fun _ _ _ => trivial) (by simp) _ _
    split
    · exact .done _
    · exact Command.only_read hd _ _

/-- The warnings of a text and its tokens. The warnings stand in the order of their places, each
about just one token, which is what the warning says. The restricted commands have one warning each,
nested or not, which names them as they are typed. -/
theorem tokenize_warnings (text : String) (start : Position) (version : Version) :
    ∃ result, tokenize text start version = .ok result ∧
      (result.warnings.Pairwise fun v w => v.span.start < w.span.start) ∧
      (∀ w ∈ result.warnings, ∃ t, result.tokens.filter (·.span = w.span) = [t] ∧
        w.kind.Flags t.kind t.value) ∧
      List.Forall₂ (Warning.Names text start)
        (result.warnings.filter (·.kind.isPermission))
        (result.tokens.filter Token.isRestricted) ∧
      (Version.v1_19_70.atMost version = true → ∀ w ∈ result.warnings, w.kind ≠ .blockData) := by
  obtain ⟨fs, htokens, hwarnings, hopen⟩ := (trace_readText text start version).exists_findings
  obtain ⟨cs, -, -, hlaid⟩ := (trace_readText text start version).laidOut
  have hlt : ∀ f ∈ fs, f.warning.isSome → f.token.span.start < f.token.span.stop := by
    intro f hf hsome
    obtain ⟨k, hk⟩ := Option.isSome_iff_exists.mp hsome
    obtain ⟨before, piece, h⟩ := hopen f hf
    exact (hk ▸ h).start_lt_stop
  refine ⟨_, tokenize_eq .., ?_, fun w hw => ?_, ?_, fun hv w hw => ?_⟩
  · rw [hwarnings]
    exact pairwise_warnings (htokens ▸ hlaid.ordered) hlt
  · rw [hwarnings] at hw
    obtain ⟨⟨t, k?⟩, hf, hw⟩ := List.mem_filterMap.mp hw
    obtain ⟨k, rfl, rfl⟩ := Option.map_eq_some_iff.mp hw
    obtain ⟨_, _, _, _, -, -, -, hreported⟩ := hopen _ hf
    refine ⟨t, hlaid.filter_span ?_ (hlt _ hf rfl), hreported.flags⟩
    rw [htokens]
    exact List.mem_map_of_mem hf
  · rw [hwarnings, htokens]
    exact forall₂_names hopen
  · have hd : (Grammar.dialect version).blockSuffix ≠ some .dataOrStates := by
      simp [Grammar.blockSuffix_dialect, hv]
    exact only_readLines hd _ _ _ (Tokenized.mem_warnings.mp hw)

end BedrockCommand
