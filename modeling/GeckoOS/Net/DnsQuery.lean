/-
# DNS queries

A name goes into a query label by label, each one behind its length, and the label of length 0
ends it.  The labels are what stands between the dots of the host name; a dot at its end stands
before the root label, which every name ends with anyway.

`encode_dns_name` refuses a label that is empty or longer than 63, by returning without a
length, and `send_dns` goes on all the same.  Nothing looks at the length of the name.  So the
query is right exactly for the names that may be asked for: no label is refused, and together
with their lengths and the root label they have at most 255 bytes.
-/

import GeckoOS.Math.Loop
import GeckoOS.Net.Dns

namespace GeckoOS.Net

open GeckoOS.Math ByteMap

/-! ## Names -/

/-- A text without the byte that ends it. -/
abbrev Hostname := { text : List UInt8 // (0 : UInt8) ∉ text }

/-- The labels of a host name: what stands between its dots, and behind the last one if there
is anything. -/
def hostLabels (name : List UInt8) : List (List UInt8) :=
  if (name.splitOn dot).getLast? = some [] then (name.splitOn dot).dropLast else name.splitOn dot

/-- The bytes are a name that consists of these labels. -/
inductive NameOf : List UInt8 → List (List UInt8) → Prop
  | root : NameOf [0] []
  | label {label rest : List UInt8} {labels : List (List UInt8)} (hpos : 0 < label.length)
      (hmax : label.length ≤ 63) (hrest : NameOf rest labels) :
      NameOf (UInt8.ofNat label.length :: label ++ rest) (label :: labels)

/-- The bytes of a name. -/
def nameBytes : List (List UInt8) → List UInt8
  | [] => [0]
  | label :: labels => UInt8.ofNat label.length :: label ++ nameBytes labels

/-- A 16-bit field of a message. -/
def fieldAt (message : List UInt8) (position : Nat) : Nat :=
  (message.getD position 0).toNat * 256 + (message.getD (position + 1) 0).toNat

/-- The message is a query for the host name: one question, of type A and class IN, for a name of
at most 255 bytes. -/
def IsQueryFor (name query : List UInt8) : Prop :=
  ∃ question, NameOf question (hostLabels name) ∧ question.length ≤ 255 ∧
    query.length = 12 + question.length + 4 ∧ query.length ≤ 512 ∧ fieldAt query 4 = 1 ∧
    (query.drop 12).take question.length = question ∧
    fieldAt query (12 + question.length) = 1 ∧ fieldAt query (12 + question.length + 2) = 1

/-- Whatever the stack and the state of the network are, the call comes to an end, what it passes
on to be sent is a query for the name, and it is written inside its buffer. -/
def SendsQuery (name : Hostname) : Prop :=
  ∀ (stack : ByteMap) (s : RequestState),
    match sendDns stack name.val s with
    | .request query written _ => (∀ offset ∈ written, offset < 512) ∧ IsQueryFor name.val query
    | _ => False

/-- The name may be asked for. -/
def Askable (name : List UInt8) : Prop :=
  (∀ label ∈ hostLabels name, 0 < label.length ∧ label.length ≤ 63) ∧
    (nameBytes (hostLabels name)).length ≤ 255

/-! ## Labels -/

variable {label rest name : List UInt8} {labels : List (List UInt8)}

theorem nameOf_iff : NameOf rest labels ↔
    (∀ label ∈ labels, 0 < label.length ∧ label.length ≤ 63) ∧ rest = nameBytes labels := by
  constructor
  · intro hname
    induction hname with
    | root => exact ⟨by simp, rfl⟩
    | label hpos hmax _ ih =>
        refine ⟨?_, ?_⟩
        · rw [List.forall_mem_cons]
          exact ⟨⟨hpos, hmax⟩, ih.1⟩
        · rw [nameBytes, ih.2]
  · rintro ⟨hvalid, rfl⟩
    induction labels with
    | nil => exact .root
    | cons label labels ih =>
        obtain ⟨⟨hpos, hmax⟩, hlabels⟩ := List.forall_mem_cons.mp hvalid
        exact .label hpos hmax (ih hlabels)

theorem hostLabels_nil : hostLabels [] = [] := rfl

/-- The last label, without a dot behind it. -/
theorem hostLabels_last (hne : label ≠ []) (hdot : dot ∉ label) : hostLabels label = [label] := by
  rw [hostLabels, List.splitOn_eq_singleton hdot, if_neg]
  simpa using hne

/-- A label with a dot behind it. -/
theorem hostLabels_append (hdot : dot ∉ label) (rest : List UInt8) :
    hostLabels (label ++ dot :: rest) = label :: hostLabels rest := by
  have hrest := List.splitOn_ne_nil dot rest
  rw [hostLabels, hostLabels, List.splitOn_append_cons_self_of_not_mem hdot]
  cases hpieces : rest.splitOn dot with
  | nil => exact absurd hpieces hrest
  | cons piece pieces =>
      rw [List.getLast?_cons_cons]
      split_ifs <;> rfl

/-- A name begins with a label, which ends with the name or with a dot. -/
theorem exists_label (hne : name ≠ []) :
    ∃ label, dot ∉ label ∧ (name = label ∧ label ≠ [] ∨ ∃ rest, name = label ++ dot :: rest) := by
  refine ⟨name.takeWhile (· != dot), fun hdot => ?_, ?_⟩
  · simpa using List.mem_takeWhile_imp hdot
  · have hboth := List.takeWhile_append_dropWhile (p := (· != dot)) (l := name)
    cases hdrop : name.dropWhile (· != dot) with
    | nil =>
        rw [hdrop, List.append_nil] at hboth
        left
        exact ⟨hboth.symm, fun hempty => hne (hboth.symm.trans hempty)⟩
    | cons c rest =>
        have hc : c = dot := by
          have hhead := List.head?_dropWhile_not (· != dot) name
          rw [hdrop] at hhead
          simpa using hhead
        rw [hdrop, hc] at hboth
        exact .inr ⟨rest, hboth.symm⟩

/-! ## The end of a label -/

/-- The bytes of a label. -/
private abbrev isLabelByte (c : UInt8) : Bool := decide (c ≠ dot ∧ c ≠ 0)

private theorem getD_labelByte {i : Nat} (hi : i < (label.takeWhile isLabelByte).length) :
    label.getD i 0 ≠ dot ∧ label.getD i 0 ≠ 0 := by
  have hmem := List.mem_takeWhile_imp (List.getElem_mem hi)
  have hlt := hi.trans_le (List.takeWhile_sublist isLabelByte).length_le
  rw [(List.takeWhile_prefix isLabelByte).getElem hi] at hmem
  rw [List.getD_eq_getElem _ _ hlt]
  exact of_decide_eq_true hmem

private theorem getD_stop :
    ¬ (label.getD (label.takeWhile isLabelByte).length 0 ≠ dot ∧
      label.getD (label.takeWhile isLabelByte).length 0 ≠ 0) := by
  have hboth := List.takeWhile_append_dropWhile (p := isLabelByte) (l := label)
  have hhead := List.head?_dropWhile_not isLabelByte label
  generalize (label.takeWhile isLabelByte) = first at hboth ⊢
  cases hdrop : label.dropWhile isLabelByte with
  | nil =>
      rw [hdrop, List.append_nil] at hboth
      rw [← hboth, List.getD_eq_default _ _ le_rfl]
      exact fun hstop => hstop.2 rfl
  | cons c rest =>
      rw [hdrop] at hboth hhead
      rw [← hboth, List.getD_append_right _ _ _ _ le_rfl, Nat.sub_self]
      exact of_decide_eq_false (by simpa using hhead)

/-- The rounds of the search find `labelLength`, and do not end where there is none. -/
theorem loop_labelRound (label : List UInt8) : loop (labelRound label) 0 = labelLength label := by
  by_cases hshort : (label.takeWhile isLabelByte).length < 2 ^ 16
  · -- downwards from the end of the label
    have hfrom : ∀ left i, i + left = (label.takeWhile isLabelByte).length →
        loop (labelRound label) i = some (i + left) := by
      intro left
      induction left with
      | zero =>
          intro i hi
          rw [loop_eq, labelRound, if_neg]
          · rfl
          · rw [show i = _ from hi]
            exact getD_stop
      | succ left ih =>
          intro i hi
          rw [loop_eq, labelRound, if_pos (getD_labelByte (by omega)),
            Nat.mod_eq_of_lt (by omega)]
          apply (ih (i + 1) (by omega)).trans
          rw [Nat.add_right_comm, Nat.add_assoc]
    rw [hfrom _ 0 (Nat.zero_add _), Nat.zero_add]
    exact (if_pos hshort).symm
  · rw [show labelLength label = none from if_neg hshort]
    -- the counter comes back to 0 before the end of the label
    have hnever : ∀ i result, loop (labelRound label) i = some result → i < 2 ^ 16 → False := by
      intro i result hresult
      apply loop_induct (motive := fun i _ => i < 2 ^ 16 → False) _ _ hresult
      · intro i result hleave hi
        rw [labelRound, if_pos (getD_labelByte (by omega))] at hleave
        cases hleave
      · intro i j result _ hlater _
        apply hlater
        rename_i hround _
        rw [labelRound, if_pos (getD_labelByte (by omega))] at hround
        rw [← Sum.inr.inj hround]
        exact Nat.mod_lt _ (by decide)
    cases hresult : loop (labelRound label) 0 with
    | none => rfl
    | some result => exact (hnever 0 result hresult (by decide)).elim

/-- The search finds the end of a short label. -/
theorem labelLength_eq (hdot : dot ∉ label) (hzero : 0 ∉ label) (hmax : label.length ≤ 63)
    (hrest : rest.head? = none ∨ rest.head? = some dot) :
    labelLength (label ++ rest) = some label.length := by
  have hlabel : ∀ c ∈ label, isLabelByte c := by
    intro c hc
    apply decide_eq_true
    exact ⟨fun h => hdot (h ▸ hc), fun h => hzero (h ▸ hc)⟩
  have hrest : rest.takeWhile isLabelByte = [] := by
    cases rest with
    | nil => rfl
    | cons c rest =>
        have hc : c = dot := by simpa using hrest
        rw [hc]
        rfl
  have htake : (label ++ rest).takeWhile isLabelByte = label := by
    rw [List.takeWhile_append_of_pos hlabel, hrest, List.append_nil]
  change (if ((label ++ rest).takeWhile isLabelByte).length < 2 ^ 16 then _ else _) = _
  rw [htake, if_pos (by omega)]

/-! ## Writing -/

variable {query : QueryBuf} {offset pos rounds : Nat} {stack : ByteMap}

theorem QueryBuf.writeAll_append (first second : List UInt8) :
    query.writeAll offset (first ++ second) =
      (query.writeAll offset first).writeAll (offset + first.length) second := by
  induction first generalizing query offset with
  | nil => rfl
  | cons b first ih =>
      rw [List.cons_append, writeAll, writeAll, ih, List.length_cons, Nat.add_assoc,
        Nat.add_comm 1]

theorem QueryBuf.written_writeAll (bytes : List UInt8) :
    (query.writeAll offset bytes).written =
      query.written ++ List.range' offset bytes.length := by
  induction bytes generalizing query offset with
  | nil => exact (List.append_nil _).symm
  | cons b bytes ih =>
      rw [writeAll, ih, write, List.append_assoc]
      rfl

/-- What lies before the place of a write stays. -/
theorem QueryBuf.writeAll_before {place : Nat} (bytes : List UInt8) (hbefore : place < offset) :
    (query.writeAll offset bytes).bytes place = query.bytes place := by
  induction bytes generalizing query offset with
  | nil => rfl
  | cons b bytes ih =>
      rw [writeAll, ih (Nat.lt_succ_of_lt hbefore)]
      exact Function.update_of_ne hbefore.ne _ _

/-- What has been written is there. -/
theorem QueryBuf.slice_writeAll (bytes : List UInt8) :
    (query.writeAll offset bytes).bytes.slice offset bytes.length = bytes := by
  induction bytes generalizing query offset with
  | nil => rfl
  | cons b bytes ih =>
      have hb : ((query.write offset b).writeAll (offset + 1) bytes).bytes offset = b := by
        rw [writeAll_before _ (Nat.lt_succ_self _)]
        exact Function.update_self _ _ _
      rw [writeAll, List.length_cons, Nat.add_comm bytes.length, slice_add, ih]
      exact congrArg (· :: bytes) hb

/-- The byte loops of `encode_dns_name`. -/
theorem foldl_putByte (bytes : List UInt8) (hfits : pos + bytes.length < 2 ^ 16) :
    bytes.foldl putByte (pos, query) =
      (pos + bytes.length, query.writeAll (12 + pos) bytes) := by
  induction bytes generalizing pos query with
  | nil => rfl
  | cons b bytes ih =>
      rw [List.length_cons] at hfits ⊢
      rw [List.foldl_cons, putByte, Nat.mod_eq_of_lt (by omega), ih (by omega),
        QueryBuf.writeAll, Nat.add_right_comm, Nat.add_assoc, Nat.add_assoc]

/-! ## The encoder -/

/-- One round of the encoder takes the first label of a name, and the dot behind it. -/
theorem labels_cases (hne : name ≠ []) :
    ∃ label tail rest, name = label ++ tail ∧ dot ∉ label ∧
      (tail.head? = none ∨ tail.head? = some dot) ∧
      (if tail.head? = some dot then tail.tail else tail) = rest ∧
      rest.length < name.length ∧ rest ⊆ name ∧
      hostLabels name = label :: hostLabels rest := by
  obtain ⟨label, hdot, ⟨rfl, hlabel⟩ | ⟨rest, rfl⟩⟩ := exists_label hne
  · refine ⟨name, [], [], (List.append_nil _).symm, hdot, .inl rfl, rfl, ?_, ?_, ?_⟩
    · exact List.length_pos_of_ne_nil hne
    · exact List.nil_subset _
    · rw [hostLabels_last hne hdot, hostLabels_nil]
  · refine ⟨label, dot :: rest, rest, rfl, hdot, .inr rfl, rfl, ?_, ?_,
      hostLabels_append hdot rest⟩
    · rw [List.length_append, List.length_cons]
      omega
    · intro c hc
      exact List.mem_append_right _ (List.mem_cons_of_mem _ hc)

/-- The encoder writes the bytes of the name: by induction on its rounds, a label each. -/
theorem encodeDnsName_eq (hrounds : name.length ≤ rounds) (hzero : 0 ∉ name)
    (hvalid : ∀ label ∈ hostLabels name, 0 < label.length ∧ label.length ≤ 63)
    (hfits : pos + (nameBytes (hostLabels name)).length < 2 ^ 16) :
    encodeDnsName rounds name pos query =
      .encoded (pos + (nameBytes (hostLabels name)).length)
        (query.writeAll (12 + pos) (nameBytes (hostLabels name))) := by
  induction rounds generalizing name pos query with
  | zero =>
      obtain rfl := List.length_eq_zero_iff.mp (Nat.le_zero.mp hrounds)
      rw [hostLabels_nil] at hfits ⊢
      exact congrArg (Encoding.encoded · _) (Nat.mod_eq_of_lt hfits)
  | succ rounds ih =>
      cases name with
      | nil =>
          rw [hostLabels_nil] at hfits ⊢
          exact congrArg (Encoding.encoded · _) (Nat.mod_eq_of_lt hfits)
      | cons c more =>
          obtain ⟨label, tail, rest, hname, hdot, htail, hnext, hless, hsub, hlabels⟩ :=
            labels_cases (List.cons_ne_nil c more)
          have hzero' : 0 ∉ rest := fun hmem => hzero (hsub hmem)
          have hrounds' : rest.length ≤ rounds := Nat.le_of_lt_succ (hless.trans_le hrounds)
          rw [hlabels, List.forall_mem_cons] at hvalid
          obtain ⟨⟨hpos, hmax⟩, hvalid⟩ := hvalid
          rw [hname, List.mem_append, not_or] at hzero
          have hlength := labelLength_eq hdot hzero.1 hmax htail
          rw [hlabels, nameBytes, List.length_append] at hfits ⊢
          have hwrite := @foldl_putByte query pos (UInt8.ofNat label.length :: label) (by omega)
          rw [encodeDnsName, hname]
          simp only [hlength, List.take_left, List.drop_left, hwrite, hnext]
          rw [if_neg (by omega), ih hrounds' hzero' hvalid (by omega), QueryBuf.writeAll_append,
            Nat.add_assoc, Nat.add_assoc 12]

/-! ## The query -/

/-- The query with this question name. -/
def queryOf (question : List UInt8) : List UInt8 := queryHeader ++ question ++ [0, 1, 0, 1]

theorem length_queryHeader : queryHeader.length = 12 := rfl

theorem length_queryOf (question : List UInt8) :
    (queryOf question).length = 12 + question.length + 4 := by
  rw [queryOf, List.length_append, List.length_append]
  rfl

theorem fieldAt_queryOf (question : List UInt8) (i : Nat) :
    fieldAt (queryOf question) (12 + question.length + i) = fieldAt [0, 1, 0, 1] i := by
  have hfront : (queryHeader ++ question).length = 12 + question.length := by
    rw [List.length_append]
    rfl
  have hbyte : ∀ j, (queryOf question).getD (12 + question.length + j) 0 =
      [0, 1, 0, 1].getD j (0 : UInt8) := by
    intro j
    rw [queryOf, List.getD_append_right _ _ _ _ (by omega), hfront, Nat.add_sub_cancel_left]
  rw [fieldAt, fieldAt, Nat.add_assoc _ i 1, hbyte, hbyte]

/-- There is one question. -/
theorem fieldAt_queryOf_four (question : List UInt8) : fieldAt (queryOf question) 4 = 1 := by
  have hbyte : ∀ j < 12, (queryOf question).getD j 0 = queryHeader.getD j 0 := by
    intro j hj
    rw [queryOf, List.append_assoc, List.getD_append _ _ _ _ (length_queryHeader ▸ hj)]
  rw [fieldAt, hbyte 4 (by decide), hbyte (4 + 1) (by decide)]
  decide

/-- For a name that may be asked for, the bytes of the query are written one after the other. -/
theorem sendDns_eq (hzero : 0 ∉ name) (hask : Askable name) (s : RequestState) :
    sendDns stack name s =
      .request (queryOf (nameBytes (hostLabels name)))
        (List.range (12 + (nameBytes (hostLabels name)).length + 4))
        (udpRequestStart s 0x08080404 49152 53 (queryOf (nameBytes (hostLabels name)))).2 := by
  obtain ⟨hvalid, hmax⟩ := hask
  have hone : shortBytes (hostToNetShort 1) = [0, 1] := by decide
  have hfront : (queryHeader ++ nameBytes (hostLabels name)).length =
      12 + (nameBytes (hostLabels name)).length := by
    rw [List.length_append]
    rfl
  have hwrites : (((QueryBuf.writeAll ⟨stack, []⟩ 0 queryHeader).writeAll 12
      (nameBytes (hostLabels name))).writeAll (12 + (nameBytes (hostLabels name)).length)
        [0, 1]).writeAll (12 + (nameBytes (hostLabels name)).length + 2) [0, 1] =
      QueryBuf.writeAll ⟨stack, []⟩ 0 (queryOf (nameBytes (hostLabels name))) := by
    rw [queryOf, QueryBuf.writeAll_append, QueryBuf.writeAll_append, hfront,
      length_queryHeader, show [0, 1, 0, 1] = [0, 1] ++ [(0 : UInt8), 1] from rfl,
      QueryBuf.writeAll_append]
    simp only [Nat.zero_add]
    rfl
  have hslice := @QueryBuf.slice_writeAll ⟨stack, []⟩ 0 (queryOf (nameBytes (hostLabels name)))
  rw [length_queryOf] at hslice
  have hfits : ∀ pos, pos ≤ 512 → pos % 2 ^ 16 = pos := fun pos hpos =>
    Nat.mod_eq_of_lt (by omega)
  rw [sendDns, encodeDnsName_eq le_rfl hzero hvalid (by omega)]
  simp only [Nat.zero_add, Nat.add_zero, hone]
  rw [hfits (12 + _) (by omega), hfits (12 + _ + 2) (by omega), hwrites,
    hfits (12 + _ + 2 + 2) (by omega), hslice, QueryBuf.written_writeAll, List.nil_append,
    length_queryOf, List.range_eq_range']

/-- `send_dns` is right about a name exactly when the name may be asked for. -/
theorem sendsQuery_iff (name : Hostname) : SendsQuery name ↔ Askable name.val := by
  constructor
  · intro hsends
    have hsent := hsends (fun _ => 0) ⟨NetState.init fun _ => 0, 0⟩
    generalize sendDns _ _ _ = sent at hsent
    cases sent with
    | endless => exact hsent.elim
    | undefinedLength => exact hsent.elim
    | request query written s =>
        obtain ⟨-, question, hname, hmax, -⟩ := hsent
        obtain ⟨hvalid, rfl⟩ := nameOf_iff.mp hname
        exact ⟨hvalid, hmax⟩
  · intro hask stack s
    have hmax := hask.2
    rw [sendDns_eq name.property hask]
    refine ⟨?_, nameBytes (hostLabels name.val), nameOf_iff.mpr ⟨hask.1, rfl⟩, hmax,
      length_queryOf _, ?_, fieldAt_queryOf_four _, ?_, fieldAt_queryOf _ 0, fieldAt_queryOf _ 2⟩
    · intro offset hoffset
      rw [List.mem_range] at hoffset
      omega
    · rw [length_queryOf]
      omega
    · rw [queryOf, List.append_assoc]
      exact List.take_left

/-- The name `a..b` has an empty label, and the length of its encoding is never set. -/
theorem not_sendsQuery_empty_label : ¬ SendsQuery ⟨[0x61, dot, dot, 0x62], by decide⟩ := by
  intro hsends
  exact hsends (fun _ => 0) ⟨NetState.init fun _ => 0, 0⟩

end GeckoOS.Net
