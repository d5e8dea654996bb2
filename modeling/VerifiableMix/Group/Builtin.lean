import VerifiableMix.Group

/-!
# The built-in groups

A group with a modulus of 2048 bits for elections, and one with 512 bits for
tests and demonstrations.  Both have the order `q` of all scalars.  Numbers
are given as 64-bit words, most significant first; that they are group
parameters is checked when the groups are defined.
-/

namespace VerifiableMix.Group

/-- The number whose base `2 ^ 64` digits are the words, most significant
first. -/
def ofWords (words : List Nat) : Nat :=
  words.foldl (fun value word => UInt64.size * value + word) 0

/-! ## The 512-bit group -/

/-- Modulus of the 512-bit group. -/
def testModulus : Nat := ofWords
  [0xD4F11F899A23A22E, 0x43A89B301623DD11, 0x0DEC7277A203998E, 0x3B3001D660C6719E,
   0xC9FBB76933B143D8, 0x0C856D7FA785CA68, 0xB86F7DAD6357A1FE, 0x4D8EA4BA8D7DA9B5]

/-- Cofactor of the 512-bit group. -/
def testCofactor : Nat := ofWords
  [0xD4F11F899A23A22E, 0x43A89B301623DD11, 0x0DEC7277A203998E, 0x3B3001D660C6723C]

/-- Generator of the 512-bit group. -/
def testGenerator : Nat := ofWords
  [0x5B026A2EF7A247C4, 0xE32E27E57138EDC0, 0x1C5DBBE5FC083923, 0x2680C838388D0699,
   0x9B443170F36B10F9, 0xABD0E4311024A57F, 0x7C69FD6C9C7449E0, 0x840C7AB26F9BFB8A]

/-- A small group, fit for tests and demonstrations only. -/
def test : Group :=
  { name := "test-512"
    p := testModulus
    r := testCofactor
    g := testGenerator
    p_eq := by decide +kernel
    one_lt_g := by decide +kernel
    g_lt_p := by decide +kernel
    g_pow_order := by decide +kernel }

/-! ## The 2048-bit group -/

/-- Modulus of the 2048-bit group. -/
def productionModulus : Nat := ofWords
  [0x80F50C3EAEBC7C56, 0xB2988216F3BCBB80, 0x5811F384465CC46D, 0xDC51C7AF5638056B,
   0x7EEE6399750D2DC7, 0x1EEAEED94D048758, 0x6A8E1B29DF3CA71C, 0xBEA0960B7E2EE822,
   0x0E768DCAC250B05A, 0xCF3D60B8B7266C81, 0x1BE45D7F5508D7BC, 0x05AFADFBA6A20E97,
   0xCB6D7E2425D46BAA, 0x8C0AA50BBBE2EFDF, 0x315B04C480A67267, 0xB27E5D3CE6C323C5,
   0xF07E59B67FE8A610, 0xF85891538E0B77AD, 0xED860195F29A2C06, 0xFA033F4CC04B28AA,
   0xA3A2A63CA3C604FA, 0x37CA372795CA3A2F, 0xCA1FC6EBA820DF3C, 0x459D7A1A7D7CC231,
   0x9C9ED83BEBA01927, 0x2C76147088243FD3, 0x3B355602D228F72E, 0xB56C1CDA7897E23A,
   0xCA4DA1B73A67365F, 0x3AAA3385AFED425A, 0x682B1AE1E5916814, 0x820019DFE1FF7F43]

/-- Cofactor of the 2048-bit group. -/
def productionCofactor : Nat := ofWords
  [0x80F50C3EAEBC7C56, 0xB2988216F3BCBB80, 0x5811F384465CC46D, 0xDC51C7AF563805CA,
   0xB3D86DE07634F9C8, 0xF982F9CB3F5AF519, 0x6FCEE3D1D1B9AC38, 0x6701027E258B2EC8,
   0xD53FAC82076D19BB, 0x04EFCBC67D4D6048, 0xA7A28F672B1CFD60, 0x116E851D5E6398DD,
   0x3B6FDA23A1606ABD, 0x311416963E030582, 0xF45EE3EF550D8254, 0x9116A3EB964AFF1A,
   0xD2126604A41773BE, 0x342D3E3F5646895C, 0x57944947BD936476, 0x17BA443AB5A97F77,
   0xBB37F7A9C9167866, 0xBD312BEA47DDA35C, 0x7299E0E29DF20A6B, 0xCA21D9729B9FDD96,
   0xD4F0B0956136FD00, 0xD9C3806796C5DB13, 0xD6D05D516DDAA8C2, 0xF069A6775D9E7A96]

/-- Generator of the 2048-bit group. -/
def productionGenerator : Nat := ofWords
  [0x551743EF57182C17, 0xEBED4977967E9E10, 0x694BF2CB0889011B, 0xD59D5A3E05C3096D,
   0xD0CD64717BEE2A2C, 0x43FD94021DAC765B, 0x5D5163A268D372B6, 0x2DB7EC6D84DF1AC9,
   0x919012EAC3D64D64, 0xF6263B8966A35471, 0xD853A31CFD35523E, 0xF30FC9F821D41FE8,
   0x08660B98F162B440, 0xA19BDA2479365E79, 0x610EACE917E05092, 0xDB2D64507384F403,
   0xBB5FDADFAF3E5A76, 0x982AE1F7F6019AE3, 0x3904F15CFC49A990, 0xC26DC7A5591ACA7A,
   0x64CA115B42E8AB56, 0xF65D665A4F6CB7A2, 0x059E5BE9A24D38C8, 0x66F043D680426ABE,
   0x0627F8781A269B6B, 0x3F4992DBEE9C71EB, 0x0C5F64B17A51CB11, 0x164A7183945C338F,
   0xFD3C4332A597B817, 0xBD241072970E95C9, 0x9D7F11E1B1E9E9E6, 0x57A59D9C677943E1]

/-- The group for elections. -/
def production : Group :=
  { name := "production-2048"
    p := productionModulus
    r := productionCofactor
    g := productionGenerator
    p_eq := by decide +kernel
    one_lt_g := by decide +kernel
    g_lt_p := by decide +kernel
    g_pow_order := by decide +kernel }

end VerifiableMix.Group
