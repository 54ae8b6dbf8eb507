import VersionConstraints.Proofs.Unambiguous
import VersionConstraints.Proofs.Universal

namespace VersionConstraints

namespace Version

variable {s : Scheme} {t u : Text} {v w : Version s}

-- Two versions that differ at most in their spelling.
structure Respells (v w : Version s) : Prop where
  rank     : (v : Precedence) = w
  metadata : v.metadata = w.metadata

theorem Respells.bump (h : v.Respells w) (part : Part) : (v.bump part).Respells (w.bump part) where
  rank     := congrArg (Precedence.bump part) h.rank
  metadata := rfl

-- The tag is in the spelling of a version and nowhere else.
theorem parse_respells (h : s.untagged t = s.untagged u) :
    Simulates Respells (parse s t) (parse s u) := by
  intro v hv
  have ⟨hs, hM, hm, hp, hr, hl, _⟩ := read_eq_ok.mp hv
  refine ⟨{ v with spelling := u }, read_eq_ok.mpr ?_, rfl, rfl⟩
  rw [← h]
  exact ⟨hs, hM, hm, hp, hr, hl, rfl⟩

theorem respells_lifts (source source' : Text) :
    Constraint.Lifts (Respells (s := s)) Constraint.Alike source source' where
  rank _ _ h := h.rank
  bump _ _ part h := h.bump part
  constraint _ _ _ h := ⟨⟨rfl, h.rank⟩, h.metadata⟩

end Version

namespace Body

variable {b b' : Body} {segments : List Text}

-- Two bodies that differ at most in their tag.
structure Retags (b b' : Body) : Prop where
  front  : b.front = b'.front
  back   : b.back = b'.back
  suffix : b.suffix = b'.suffix

theorem Retags.symm (h : b.Retags b') : b'.Retags b :=
  ⟨h.front.symm, h.back.symm, h.suffix.symm⟩

theorem Fits.untagged_render (h : b.Fits segments) :
    Scheme.semantic.untagged (b.render segments) = Text.dotted segments ++ b.suffix := by
  cases b.tag_eq
  case inl ht => rw [render, ht, List.nil_append, Scheme.untagged_of_head <| h.head_ne ht]
  case inr ht =>
    rw [render, ht]
    rfl

theorem Retags.untagged_concrete (h : b.Retags b') :
    Scheme.semantic.untagged b.concrete = Scheme.semantic.untagged b'.concrete := by
  rw [concrete, concrete, b.fits_zeroed.untagged_render, b'.fits_zeroed.untagged_render, zeroed,
    zeroed, h.front, h.back, h.suffix]

-- A tag in front of a body that has none.
def tagged (b : Body) : Body :=
  { b with tag := ['v'], tag_eq := .inr rfl, untagged := nofun }

theorem retags_tagged (b : Body) : b.Retags b.tagged :=
  ⟨rfl, rfl, rfl⟩

theorem text_tagged (h : b.tag = []) : b.tagged.text = 'v' :: b.text := by
  rw [text, text, render, render, h]
  rfl

theorem tag_ofText {t : Text} (h : t.head? ≠ some 'v') : (ofText t).tag = [] := by
  cases untag_eq_or t
  case inl hu =>
    have ⟨_, ht, _⟩ := hu
    exact absurd (ht ▸ rfl) h
  case inr hu => simp [ofText, Pattern.ofText, hu.2]

end Body

namespace Token

variable {s : Scheme} {op t t' : Text} {b b' : Body}

namespace Written

variable (hw : Written op b t)
include hw

theorem expand_universal (ho : op ∈ [[], ['='], ['=', '=']]) (hf : b.front = [])
    (hb : ∀ n ∈ b.back, Pattern.isWildcard n) : expand s t = .ok (Constraint.universal t) := by
  have equal : ∀ op ∈ [[], ['='], ['=', '=']], Operator.ofText? op = some .equal := by decide
  rw [hw.text]
  exact Token.expand_universal (equal op ho) hw.body hw.nonempty <|
    b.isUniversal_ofText.mpr ⟨hf, hb⟩

variable (hw' : Written op b' t') (h : b.Retags b')
include hw' h

-- A token is told by its operator and by the segments of its body.
-- The text of the bound alone has the tag in it.
theorem expand_retags :
    Simulates (List.Forall₂ Constraint.Alike) (expand .semantic t) (expand .semantic t') := by
  have lifts := Version.respells_lifts (s := .semantic) (op ++ b.text) (op ++ b'.text)
  have bound :
      Simulates Version.Respells (bound .semantic b.concrete) (bound .semantic b'.concrete) :=
    (Version.parse_respells h.untagged_concrete).mapError
  by_cases hf : b.front = []
  case pos =>
    intro cs hc
    have ⟨ho, hb⟩ := (hw.isOk_of_front_nil hf).mp ⟨cs, hc⟩
    cases hc.symm.trans <| hw.expand_universal ho hf hb
    exact ⟨_, hw'.expand_universal ho (h.front ▸ hf) (h.back ▸ hb), .cons ⟨⟨rfl, rfl⟩, rfl⟩ .nil⟩
  case neg =>
    rw [hw.text, hw'.text, expand_append hw.body hw.nonempty hw.operator hf,
      expand_append hw'.body hw'.nonempty hw'.operator (h.front ▸ hf), h.front, h.back]
    refine .ite (fun _ => bound.bind fun _ _ hl => hl.rank ▸ lifts.range hl) fun _ => ?_
    refine .ite (fun _ => bound.bind fun _ _ hl => lifts.range hl) fun _ => ?_
    cases Operator.ofText? op
    case none => exact .error
    case some =>
      exact bound.bind fun _ _ hl => .ite (fun _ => lifts.one hl) fun _ => lifts.wildcard hl

theorem parse_retags :
    Simulates (fun set set' => List.Forall₂ (List.Forall₂ Constraint.Alike) set.groups set'.groups)
      (ConstraintSet.parse .semantic t) (ConstraintSet.parse .semantic t') := by
  have ⟨hn, ht⟩ := hw.solid
  have ⟨hn', ht'⟩ := hw'.solid
  rw [ConstraintSet.parse_token hn ht, ConstraintSet.parse_token hn' ht']
  exact (hw.expand_retags hw' h).bind fun _ _ hc => .pure <| .cons hc .nil

end Written
end Token

namespace ConstraintSet

variable {op body : Text}

-- A tag in front of a semantic body changes nothing but spellings:
-- 1. the token is read with the tag if it is read without it
-- 2. it comes to the same constraints, whose bounds have the same numbers, prereleases and metadata
-- 3. the same versions are accepted
theorem parse_tagged (ho : op ∈ Token.operators) (hb : ∀ c ∈ body, Token.inBody c) (hn : body ≠ [])
    (hv : body.head? ≠ some 'v') :
    (Parses .semantic (op ++ 'v' :: body) ↔ Parses .semantic (op ++ body)) ∧
    ∀ set set', parse .semantic (op ++ 'v' :: body) = .ok set →
      parse .semantic (op ++ body) = .ok set' →
      List.Forall₂ (List.Forall₂ Constraint.Alike) set.groups set'.groups ∧
      ∀ candidate, set.check candidate = set'.check candidate := by
  have ht := Body.text_ofText body
  have htag := (Body.ofText body).text_tagged (Body.tag_ofText hv)
  rw [ht] at htag
  have plain : Token.Written op (Body.ofText body) (op ++ body) :=
    ⟨by rw [ht], ho, by rwa [ht], by rwa [ht]⟩
  have tagged : Token.Written op (Body.ofText body).tagged (op ++ 'v' :: body) :=
    ⟨by rw [htag], ho, by simp [htag], by rw [htag]; exact List.forall_mem_cons.mpr ⟨rfl, hb⟩⟩
  have retags := (Body.ofText body).retags_tagged
  have drop := tagged.parse_retags plain retags.symm
  have add := plain.parse_retags tagged retags
  refine ⟨⟨?drops, ?adds⟩, ?alike⟩
  case drops =>
    intro ⟨set, h⟩
    have ⟨set', h', _⟩ := drop set h
    exact ⟨set', h'⟩
  case adds =>
    intro ⟨set, h⟩
    have ⟨set', h', _⟩ := add set h
    exact ⟨set', h'⟩
  case alike =>
    intro set set' h h'
    have ⟨_, he, ha⟩ := drop set h
    cases he.symm.trans h'
    exact ⟨ha, check_eq_of_agrees <| ha.imp fun _ _ hg => hg.imp fun _ _ hc => hc.toAgrees⟩

-- A caret in front of a wildcard, with the letter of the tag in the prerelease and in the metadata.
theorem parse_tagged_caret :
    ∃ set set', parse .semantic "^v0.2.X-v.1+v".toList = .ok set ∧
      parse .semantic "^0.2.X-v.1+v".toList = .ok set' ∧
      List.Forall₂ (List.Forall₂ Constraint.Alike) set.groups set'.groups ∧
      ∀ candidate, set.check candidate = set'.check candidate := by
  have ho : ['^'] ∈ Token.operators := by decide
  have hb : "0.2.X-v.1+v".toList.all Token.inBody := by decide
  have ⟨parses_iff, alike⟩ := parse_tagged ho (List.all_eq_true.mp hb) (by decide) (by decide)
  have ⟨set', h'⟩ : Parses .semantic "^0.2.X-v.1+v".toList := parses_iff_flat.mpr (by decide)
  have ⟨set, h⟩ := parses_iff.mpr ⟨set', h'⟩
  exact ⟨set, set', h, h', alike set set' h h'⟩

end ConstraintSet
end VersionConstraints
