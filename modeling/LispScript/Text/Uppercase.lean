import LispScript.Text.CodeRange

/-!
Full upper-casing: a character may become up to three characters.
-/

namespace LispScript.Text

/-- Runs of code points above ASCII that have one upper-case code point each, with the upper case
of the first of the run; the others lie at the same distance from theirs. -/
def uppercaseRanges : List (CodeRange × Nat) :=
  [
   (⟨0x00B5, 0x00B5, 1⟩, 0x039C), (⟨0x00E0, 0x00F6, 1⟩, 0x00C0), (⟨0x00F8, 0x00FE, 1⟩, 0x00D8),
   (⟨0x00FF, 0x00FF, 1⟩, 0x0178), (⟨0x0101, 0x012F, 2⟩, 0x0100), (⟨0x0131, 0x0131, 1⟩, 0x0049),
   (⟨0x0133, 0x0137, 2⟩, 0x0132), (⟨0x013A, 0x0148, 2⟩, 0x0139), (⟨0x014B, 0x0177, 2⟩, 0x014A),
   (⟨0x017A, 0x017E, 2⟩, 0x0179), (⟨0x017F, 0x017F, 1⟩, 0x0053), (⟨0x0180, 0x0180, 1⟩, 0x0243),
   (⟨0x0183, 0x0185, 2⟩, 0x0182), (⟨0x0188, 0x0188, 1⟩, 0x0187), (⟨0x018C, 0x018C, 1⟩, 0x018B),
   (⟨0x0192, 0x0192, 1⟩, 0x0191), (⟨0x0195, 0x0195, 1⟩, 0x01F6), (⟨0x0199, 0x0199, 1⟩, 0x0198),
   (⟨0x019A, 0x019A, 1⟩, 0x023D), (⟨0x019B, 0x019B, 1⟩, 0xA7DC), (⟨0x019E, 0x019E, 1⟩, 0x0220),
   (⟨0x01A1, 0x01A5, 2⟩, 0x01A0), (⟨0x01A8, 0x01A8, 1⟩, 0x01A7), (⟨0x01AD, 0x01AD, 1⟩, 0x01AC),
   (⟨0x01B0, 0x01B0, 1⟩, 0x01AF), (⟨0x01B4, 0x01B6, 2⟩, 0x01B3), (⟨0x01B9, 0x01B9, 1⟩, 0x01B8),
   (⟨0x01BD, 0x01BD, 1⟩, 0x01BC), (⟨0x01BF, 0x01BF, 1⟩, 0x01F7), (⟨0x01C5, 0x01C5, 1⟩, 0x01C4),
   (⟨0x01C6, 0x01C6, 1⟩, 0x01C4), (⟨0x01C8, 0x01C8, 1⟩, 0x01C7), (⟨0x01C9, 0x01C9, 1⟩, 0x01C7),
   (⟨0x01CB, 0x01CB, 1⟩, 0x01CA), (⟨0x01CC, 0x01CC, 1⟩, 0x01CA), (⟨0x01CE, 0x01DC, 2⟩, 0x01CD),
   (⟨0x01DD, 0x01DD, 1⟩, 0x018E), (⟨0x01DF, 0x01EF, 2⟩, 0x01DE), (⟨0x01F2, 0x01F2, 1⟩, 0x01F1),
   (⟨0x01F3, 0x01F3, 1⟩, 0x01F1), (⟨0x01F5, 0x01F5, 1⟩, 0x01F4), (⟨0x01F9, 0x021F, 2⟩, 0x01F8),
   (⟨0x0223, 0x0233, 2⟩, 0x0222), (⟨0x023C, 0x023C, 1⟩, 0x023B), (⟨0x023F, 0x0240, 1⟩, 0x2C7E),
   (⟨0x0242, 0x0242, 1⟩, 0x0241), (⟨0x0247, 0x024F, 2⟩, 0x0246), (⟨0x0250, 0x0250, 1⟩, 0x2C6F),
   (⟨0x0251, 0x0251, 1⟩, 0x2C6D), (⟨0x0252, 0x0252, 1⟩, 0x2C70), (⟨0x0253, 0x0253, 1⟩, 0x0181),
   (⟨0x0254, 0x0254, 1⟩, 0x0186), (⟨0x0256, 0x0257, 1⟩, 0x0189), (⟨0x0259, 0x0259, 1⟩, 0x018F),
   (⟨0x025B, 0x025B, 1⟩, 0x0190), (⟨0x025C, 0x025C, 1⟩, 0xA7AB), (⟨0x0260, 0x0260, 1⟩, 0x0193),
   (⟨0x0261, 0x0261, 1⟩, 0xA7AC), (⟨0x0263, 0x0263, 1⟩, 0x0194), (⟨0x0264, 0x0264, 1⟩, 0xA7CB),
   (⟨0x0265, 0x0265, 1⟩, 0xA78D), (⟨0x0266, 0x0266, 1⟩, 0xA7AA), (⟨0x0268, 0x0268, 1⟩, 0x0197),
   (⟨0x0269, 0x0269, 1⟩, 0x0196), (⟨0x026A, 0x026A, 1⟩, 0xA7AE), (⟨0x026B, 0x026B, 1⟩, 0x2C62),
   (⟨0x026C, 0x026C, 1⟩, 0xA7AD), (⟨0x026F, 0x026F, 1⟩, 0x019C), (⟨0x0271, 0x0271, 1⟩, 0x2C6E),
   (⟨0x0272, 0x0272, 1⟩, 0x019D), (⟨0x0275, 0x0275, 1⟩, 0x019F), (⟨0x027D, 0x027D, 1⟩, 0x2C64),
   (⟨0x0280, 0x0280, 1⟩, 0x01A6), (⟨0x0282, 0x0282, 1⟩, 0xA7C5), (⟨0x0283, 0x0283, 1⟩, 0x01A9),
   (⟨0x0287, 0x0287, 1⟩, 0xA7B1), (⟨0x0288, 0x0288, 1⟩, 0x01AE), (⟨0x0289, 0x0289, 1⟩, 0x0244),
   (⟨0x028A, 0x028B, 1⟩, 0x01B1), (⟨0x028C, 0x028C, 1⟩, 0x0245), (⟨0x0292, 0x0292, 1⟩, 0x01B7),
   (⟨0x029D, 0x029D, 1⟩, 0xA7B2), (⟨0x029E, 0x029E, 1⟩, 0xA7B0), (⟨0x0345, 0x0345, 1⟩, 0x0399),
   (⟨0x0371, 0x0373, 2⟩, 0x0370), (⟨0x0377, 0x0377, 1⟩, 0x0376), (⟨0x037B, 0x037D, 1⟩, 0x03FD),
   (⟨0x03AC, 0x03AC, 1⟩, 0x0386), (⟨0x03AD, 0x03AF, 1⟩, 0x0388), (⟨0x03B1, 0x03C1, 1⟩, 0x0391),
   (⟨0x03C2, 0x03C2, 1⟩, 0x03A3), (⟨0x03C3, 0x03CB, 1⟩, 0x03A3), (⟨0x03CC, 0x03CC, 1⟩, 0x038C),
   (⟨0x03CD, 0x03CE, 1⟩, 0x038E), (⟨0x03D0, 0x03D0, 1⟩, 0x0392), (⟨0x03D1, 0x03D1, 1⟩, 0x0398),
   (⟨0x03D5, 0x03D5, 1⟩, 0x03A6), (⟨0x03D6, 0x03D6, 1⟩, 0x03A0), (⟨0x03D7, 0x03D7, 1⟩, 0x03CF),
   (⟨0x03D9, 0x03EF, 2⟩, 0x03D8), (⟨0x03F0, 0x03F0, 1⟩, 0x039A), (⟨0x03F1, 0x03F1, 1⟩, 0x03A1),
   (⟨0x03F2, 0x03F2, 1⟩, 0x03F9), (⟨0x03F3, 0x03F3, 1⟩, 0x037F), (⟨0x03F5, 0x03F5, 1⟩, 0x0395),
   (⟨0x03F8, 0x03F8, 1⟩, 0x03F7), (⟨0x03FB, 0x03FB, 1⟩, 0x03FA), (⟨0x0430, 0x044F, 1⟩, 0x0410),
   (⟨0x0450, 0x045F, 1⟩, 0x0400), (⟨0x0461, 0x0481, 2⟩, 0x0460), (⟨0x048B, 0x04BF, 2⟩, 0x048A),
   (⟨0x04C2, 0x04CE, 2⟩, 0x04C1), (⟨0x04CF, 0x04CF, 1⟩, 0x04C0), (⟨0x04D1, 0x052F, 2⟩, 0x04D0),
   (⟨0x0561, 0x0586, 1⟩, 0x0531), (⟨0x10D0, 0x10FA, 1⟩, 0x1C90), (⟨0x10FD, 0x10FF, 1⟩, 0x1CBD),
   (⟨0x13F8, 0x13FD, 1⟩, 0x13F0), (⟨0x1C80, 0x1C80, 1⟩, 0x0412), (⟨0x1C81, 0x1C81, 1⟩, 0x0414),
   (⟨0x1C82, 0x1C82, 1⟩, 0x041E), (⟨0x1C83, 0x1C84, 1⟩, 0x0421), (⟨0x1C85, 0x1C85, 1⟩, 0x0422),
   (⟨0x1C86, 0x1C86, 1⟩, 0x042A), (⟨0x1C87, 0x1C87, 1⟩, 0x0462), (⟨0x1C88, 0x1C88, 1⟩, 0xA64A),
   (⟨0x1C8A, 0x1C8A, 1⟩, 0x1C89), (⟨0x1D79, 0x1D79, 1⟩, 0xA77D), (⟨0x1D7D, 0x1D7D, 1⟩, 0x2C63),
   (⟨0x1D8E, 0x1D8E, 1⟩, 0xA7C6), (⟨0x1E01, 0x1E95, 2⟩, 0x1E00), (⟨0x1E9B, 0x1E9B, 1⟩, 0x1E60),
   (⟨0x1EA1, 0x1EFF, 2⟩, 0x1EA0), (⟨0x1F00, 0x1F07, 1⟩, 0x1F08), (⟨0x1F10, 0x1F15, 1⟩, 0x1F18),
   (⟨0x1F20, 0x1F27, 1⟩, 0x1F28), (⟨0x1F30, 0x1F37, 1⟩, 0x1F38), (⟨0x1F40, 0x1F45, 1⟩, 0x1F48),
   (⟨0x1F51, 0x1F57, 2⟩, 0x1F59), (⟨0x1F60, 0x1F67, 1⟩, 0x1F68), (⟨0x1F70, 0x1F71, 1⟩, 0x1FBA),
   (⟨0x1F72, 0x1F75, 1⟩, 0x1FC8), (⟨0x1F76, 0x1F77, 1⟩, 0x1FDA), (⟨0x1F78, 0x1F79, 1⟩, 0x1FF8),
   (⟨0x1F7A, 0x1F7B, 1⟩, 0x1FEA), (⟨0x1F7C, 0x1F7D, 1⟩, 0x1FFA), (⟨0x1FB0, 0x1FB1, 1⟩, 0x1FB8),
   (⟨0x1FBE, 0x1FBE, 1⟩, 0x0399), (⟨0x1FD0, 0x1FD1, 1⟩, 0x1FD8), (⟨0x1FE0, 0x1FE1, 1⟩, 0x1FE8),
   (⟨0x1FE5, 0x1FE5, 1⟩, 0x1FEC), (⟨0x214E, 0x214E, 1⟩, 0x2132), (⟨0x2170, 0x217F, 1⟩, 0x2160),
   (⟨0x2184, 0x2184, 1⟩, 0x2183), (⟨0x24D0, 0x24E9, 1⟩, 0x24B6), (⟨0x2C30, 0x2C5F, 1⟩, 0x2C00),
   (⟨0x2C61, 0x2C61, 1⟩, 0x2C60), (⟨0x2C65, 0x2C65, 1⟩, 0x023A), (⟨0x2C66, 0x2C66, 1⟩, 0x023E),
   (⟨0x2C68, 0x2C6C, 2⟩, 0x2C67), (⟨0x2C73, 0x2C73, 1⟩, 0x2C72), (⟨0x2C76, 0x2C76, 1⟩, 0x2C75),
   (⟨0x2C81, 0x2CE3, 2⟩, 0x2C80), (⟨0x2CEC, 0x2CEE, 2⟩, 0x2CEB), (⟨0x2CF3, 0x2CF3, 1⟩, 0x2CF2),
   (⟨0x2D00, 0x2D25, 1⟩, 0x10A0), (⟨0x2D27, 0x2D27, 1⟩, 0x10C7), (⟨0x2D2D, 0x2D2D, 1⟩, 0x10CD),
   (⟨0xA641, 0xA66D, 2⟩, 0xA640), (⟨0xA681, 0xA69B, 2⟩, 0xA680), (⟨0xA723, 0xA72F, 2⟩, 0xA722),
   (⟨0xA733, 0xA76F, 2⟩, 0xA732), (⟨0xA77A, 0xA77C, 2⟩, 0xA779), (⟨0xA77F, 0xA787, 2⟩, 0xA77E),
   (⟨0xA78C, 0xA78C, 1⟩, 0xA78B), (⟨0xA791, 0xA793, 2⟩, 0xA790), (⟨0xA794, 0xA794, 1⟩, 0xA7C4),
   (⟨0xA797, 0xA7A9, 2⟩, 0xA796), (⟨0xA7B5, 0xA7C3, 2⟩, 0xA7B4), (⟨0xA7C8, 0xA7CA, 2⟩, 0xA7C7),
   (⟨0xA7CD, 0xA7DB, 2⟩, 0xA7CC), (⟨0xA7F6, 0xA7F6, 1⟩, 0xA7F5), (⟨0xAB53, 0xAB53, 1⟩, 0xA7B3),
   (⟨0xAB70, 0xABBF, 1⟩, 0x13A0), (⟨0xFF41, 0xFF5A, 1⟩, 0xFF21), (⟨0x10428, 0x1044F, 1⟩, 0x10400),
   (⟨0x104D8, 0x104FB, 1⟩, 0x104B0), (⟨0x10597, 0x105A1, 1⟩, 0x10570), (⟨0x105A3, 0x105B1, 1⟩, 0x1057C),
   (⟨0x105B3, 0x105B9, 1⟩, 0x1058C), (⟨0x105BB, 0x105BC, 1⟩, 0x10594), (⟨0x10CC0, 0x10CF2, 1⟩, 0x10C80),
   (⟨0x10D70, 0x10D85, 1⟩, 0x10D50), (⟨0x118C0, 0x118DF, 1⟩, 0x118A0), (⟨0x16E60, 0x16E7F, 1⟩, 0x16E40),
   (⟨0x16EBB, 0x16ED3, 1⟩, 0x16EA0), (⟨0x1E922, 0x1E943, 1⟩, 0x1E900)]

/-- The code points whose upper case takes several code points. -/
def uppercaseExpansions : List (Nat × List Nat) :=
  [
   (0x00DF, [0x0053, 0x0053]), (0x0149, [0x02BC, 0x004E]), (0x01F0, [0x004A, 0x030C]),
   (0x0390, [0x0399, 0x0308, 0x0301]), (0x03B0, [0x03A5, 0x0308, 0x0301]), (0x0587, [0x0535, 0x0552]),
   (0x1E96, [0x0048, 0x0331]), (0x1E97, [0x0054, 0x0308]), (0x1E98, [0x0057, 0x030A]),
   (0x1E99, [0x0059, 0x030A]), (0x1E9A, [0x0041, 0x02BE]), (0x1F50, [0x03A5, 0x0313]),
   (0x1F52, [0x03A5, 0x0313, 0x0300]), (0x1F54, [0x03A5, 0x0313, 0x0301]), (0x1F56, [0x03A5, 0x0313, 0x0342]),
   (0x1F80, [0x1F08, 0x0399]), (0x1F81, [0x1F09, 0x0399]), (0x1F82, [0x1F0A, 0x0399]),
   (0x1F83, [0x1F0B, 0x0399]), (0x1F84, [0x1F0C, 0x0399]), (0x1F85, [0x1F0D, 0x0399]),
   (0x1F86, [0x1F0E, 0x0399]), (0x1F87, [0x1F0F, 0x0399]), (0x1F88, [0x1F08, 0x0399]),
   (0x1F89, [0x1F09, 0x0399]), (0x1F8A, [0x1F0A, 0x0399]), (0x1F8B, [0x1F0B, 0x0399]),
   (0x1F8C, [0x1F0C, 0x0399]), (0x1F8D, [0x1F0D, 0x0399]), (0x1F8E, [0x1F0E, 0x0399]),
   (0x1F8F, [0x1F0F, 0x0399]), (0x1F90, [0x1F28, 0x0399]), (0x1F91, [0x1F29, 0x0399]),
   (0x1F92, [0x1F2A, 0x0399]), (0x1F93, [0x1F2B, 0x0399]), (0x1F94, [0x1F2C, 0x0399]),
   (0x1F95, [0x1F2D, 0x0399]), (0x1F96, [0x1F2E, 0x0399]), (0x1F97, [0x1F2F, 0x0399]),
   (0x1F98, [0x1F28, 0x0399]), (0x1F99, [0x1F29, 0x0399]), (0x1F9A, [0x1F2A, 0x0399]),
   (0x1F9B, [0x1F2B, 0x0399]), (0x1F9C, [0x1F2C, 0x0399]), (0x1F9D, [0x1F2D, 0x0399]),
   (0x1F9E, [0x1F2E, 0x0399]), (0x1F9F, [0x1F2F, 0x0399]), (0x1FA0, [0x1F68, 0x0399]),
   (0x1FA1, [0x1F69, 0x0399]), (0x1FA2, [0x1F6A, 0x0399]), (0x1FA3, [0x1F6B, 0x0399]),
   (0x1FA4, [0x1F6C, 0x0399]), (0x1FA5, [0x1F6D, 0x0399]), (0x1FA6, [0x1F6E, 0x0399]),
   (0x1FA7, [0x1F6F, 0x0399]), (0x1FA8, [0x1F68, 0x0399]), (0x1FA9, [0x1F69, 0x0399]),
   (0x1FAA, [0x1F6A, 0x0399]), (0x1FAB, [0x1F6B, 0x0399]), (0x1FAC, [0x1F6C, 0x0399]),
   (0x1FAD, [0x1F6D, 0x0399]), (0x1FAE, [0x1F6E, 0x0399]), (0x1FAF, [0x1F6F, 0x0399]),
   (0x1FB2, [0x1FBA, 0x0399]), (0x1FB3, [0x0391, 0x0399]), (0x1FB4, [0x0386, 0x0399]),
   (0x1FB6, [0x0391, 0x0342]), (0x1FB7, [0x0391, 0x0342, 0x0399]), (0x1FBC, [0x0391, 0x0399]),
   (0x1FC2, [0x1FCA, 0x0399]), (0x1FC3, [0x0397, 0x0399]), (0x1FC4, [0x0389, 0x0399]),
   (0x1FC6, [0x0397, 0x0342]), (0x1FC7, [0x0397, 0x0342, 0x0399]), (0x1FCC, [0x0397, 0x0399]),
   (0x1FD2, [0x0399, 0x0308, 0x0300]), (0x1FD3, [0x0399, 0x0308, 0x0301]), (0x1FD6, [0x0399, 0x0342]),
   (0x1FD7, [0x0399, 0x0308, 0x0342]), (0x1FE2, [0x03A5, 0x0308, 0x0300]), (0x1FE3, [0x03A5, 0x0308, 0x0301]),
   (0x1FE4, [0x03A1, 0x0313]), (0x1FE6, [0x03A5, 0x0342]), (0x1FE7, [0x03A5, 0x0308, 0x0342]),
   (0x1FF2, [0x1FFA, 0x0399]), (0x1FF3, [0x03A9, 0x0399]), (0x1FF4, [0x038F, 0x0399]),
   (0x1FF6, [0x03A9, 0x0342]), (0x1FF7, [0x03A9, 0x0342, 0x0399]), (0x1FFC, [0x03A9, 0x0399]),
   (0xFB00, [0x0046, 0x0046]), (0xFB01, [0x0046, 0x0049]), (0xFB02, [0x0046, 0x004C]),
   (0xFB03, [0x0046, 0x0046, 0x0049]), (0xFB04, [0x0046, 0x0046, 0x004C]), (0xFB05, [0x0053, 0x0054]),
   (0xFB06, [0x0053, 0x0054]), (0xFB13, [0x0544, 0x0546]), (0xFB14, [0x0544, 0x0535]),
   (0xFB15, [0x0544, 0x053B]), (0xFB16, [0x054E, 0x0546]), (0xFB17, [0x0544, 0x053D])]

/-- The upper case of a code point above ASCII. -/
def upperCodes (code : Nat) : List Nat :=
  match uppercaseExpansions.lookup code with
  | some codes => codes
  | none =>
      match uppercaseRanges.find? (·.1.contains code) with
      | some (range, upper) => [upper + (code - range.first)]
      | none => [code]

/-- The full upper case of a character. -/
def upcase (c : Char) : List Char :=
  let code := c.toNat
  if code < 0x80 then
    if 0x61 ≤ code && code ≤ 0x7A then [Char.ofNat (code - 0x20)] else [c]
  else (upperCodes code).map Char.ofNat

/-- The full upper case of a text, character by character. -/
def upcaseText (text : String) : String :=
  String.ofList (text.toList.flatMap upcase)

end LispScript.Text
