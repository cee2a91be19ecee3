import RowQuery.Text.Ranges

/-!
The characters that may stand in a name. A letter is a character with the Unicode property
`Alphabetic`; a numeral is one of general category `Nd`, `Nl` or `No`. Below code point 128 the
classes are the ASCII letters and digits, which is tested first.
-/

namespace RowQuery.Text

/-- The intervals of `Alphabetic` below U+1000. -/
def alphabeticLow : Ranges :=
  [(0x41, 26), (0x61, 26), (0xAA, 1), (0xB5, 1), (0xBA, 1), (0xC0, 23), (0xD8, 31), (0xF8, 458),
   (0x2C6, 12), (0x2E0, 5), (0x2EC, 1), (0x2EE, 1), (0x345, 1), (0x363, 18), (0x376, 2), (0x37A, 4),
   (0x37F, 1), (0x386, 1), (0x388, 3), (0x38C, 1), (0x38E, 20), (0x3A3, 83), (0x3F7, 139),
   (0x48A, 166), (0x531, 38), (0x559, 1), (0x560, 41), (0x5B0, 14), (0x5BF, 1), (0x5C1, 2),
   (0x5C4, 2), (0x5C7, 1), (0x5D0, 27), (0x5EF, 4), (0x610, 11), (0x620, 56), (0x659, 7),
   (0x66E, 102), (0x6D5, 8), (0x6E1, 8), (0x6ED, 3), (0x6FA, 3), (0x6FF, 1), (0x710, 48),
   (0x74D, 101), (0x7CA, 33), (0x7F4, 2), (0x7FA, 1), (0x800, 24), (0x81A, 19), (0x840, 25),
   (0x860, 11), (0x870, 24), (0x889, 7), (0x897, 1), (0x8A0, 42), (0x8D4, 12), (0x8E3, 7),
   (0x8F0, 76), (0x93D, 16), (0x94E, 3), (0x955, 15), (0x971, 19), (0x985, 8), (0x98F, 2),
   (0x993, 22), (0x9AA, 7), (0x9B2, 1), (0x9B6, 4), (0x9BD, 8), (0x9C7, 2), (0x9CB, 2), (0x9CE, 1),
   (0x9D7, 1), (0x9DC, 2), (0x9DF, 5), (0x9F0, 2), (0x9FC, 1), (0xA01, 3), (0xA05, 6), (0xA0F, 2),
   (0xA13, 22), (0xA2A, 7), (0xA32, 2), (0xA35, 2), (0xA38, 2), (0xA3E, 5), (0xA47, 2), (0xA4B, 2),
   (0xA51, 1), (0xA59, 4), (0xA5E, 1), (0xA70, 6), (0xA81, 3), (0xA85, 9), (0xA8F, 3), (0xA93, 22),
   (0xAAA, 7), (0xAB2, 2), (0xAB5, 5), (0xABD, 9), (0xAC7, 3), (0xACB, 2), (0xAD0, 1), (0xAE0, 4),
   (0xAF9, 4), (0xB01, 3), (0xB05, 8), (0xB0F, 2), (0xB13, 22), (0xB2A, 7), (0xB32, 2), (0xB35, 5),
   (0xB3D, 8), (0xB47, 2), (0xB4B, 2), (0xB56, 2), (0xB5C, 2), (0xB5F, 5), (0xB71, 1), (0xB82, 2),
   (0xB85, 6), (0xB8E, 3), (0xB92, 4), (0xB99, 2), (0xB9C, 1), (0xB9E, 2), (0xBA3, 2), (0xBA8, 3),
   (0xBAE, 12), (0xBBE, 5), (0xBC6, 3), (0xBCA, 3), (0xBD0, 1), (0xBD7, 1), (0xC00, 13), (0xC0E, 3),
   (0xC12, 23), (0xC2A, 16), (0xC3D, 8), (0xC46, 3), (0xC4A, 3), (0xC55, 2), (0xC58, 3), (0xC5C, 2),
   (0xC60, 4), (0xC80, 4), (0xC85, 8), (0xC8E, 3), (0xC92, 23), (0xCAA, 10), (0xCB5, 5), (0xCBD, 8),
   (0xCC6, 3), (0xCCA, 3), (0xCD5, 2), (0xCDC, 3), (0xCE0, 4), (0xCF1, 3), (0xD00, 13), (0xD0E, 3),
   (0xD12, 41), (0xD3D, 8), (0xD46, 3), (0xD4A, 3), (0xD4E, 1), (0xD54, 4), (0xD5F, 5), (0xD7A, 6),
   (0xD81, 3), (0xD85, 18), (0xD9A, 24), (0xDB3, 9), (0xDBD, 1), (0xDC0, 7), (0xDCF, 6), (0xDD6, 1),
   (0xDD8, 8), (0xDF2, 2), (0xE01, 58), (0xE40, 7), (0xE4D, 1), (0xE81, 2), (0xE84, 1), (0xE86, 5),
   (0xE8C, 24), (0xEA5, 1), (0xEA7, 19), (0xEBB, 3), (0xEC0, 5), (0xEC6, 1), (0xECD, 1), (0xEDC, 4),
   (0xF00, 1), (0xF40, 8), (0xF49, 36), (0xF71, 19), (0xF88, 16), (0xF99, 36)]

/-- The intervals of `Alphabetic` from U+1000 to U+FFFF. -/
def alphabeticMiddle : Ranges :=
  [(0x1000, 55), (0x1038, 1), (0x103B, 5), (0x1050, 64), (0x109A, 4), (0x10A0, 38), (0x10C7, 1),
   (0x10CD, 1), (0x10D0, 43), (0x10FC, 333), (0x124A, 4), (0x1250, 7), (0x1258, 1), (0x125A, 4),
   (0x1260, 41), (0x128A, 4), (0x1290, 33), (0x12B2, 4), (0x12B8, 7), (0x12C0, 1), (0x12C2, 4),
   (0x12C8, 15), (0x12D8, 57), (0x1312, 4), (0x1318, 67), (0x1380, 16), (0x13A0, 86), (0x13F8, 6),
   (0x1401, 620), (0x166F, 17), (0x1681, 26), (0x16A0, 75), (0x16EE, 11), (0x1700, 20),
   (0x171F, 21), (0x1740, 20), (0x1760, 13), (0x176E, 3), (0x1772, 2), (0x1780, 52), (0x17B6, 19),
   (0x17D7, 1), (0x17DC, 1), (0x1820, 89), (0x1880, 43), (0x18B0, 70), (0x1900, 31), (0x1920, 12),
   (0x1930, 9), (0x1950, 30), (0x1970, 5), (0x1980, 44), (0x19B0, 26), (0x1A00, 28), (0x1A20, 63),
   (0x1A61, 20), (0x1AA7, 1), (0x1ABF, 2), (0x1ACC, 3), (0x1B00, 52), (0x1B35, 15), (0x1B45, 8),
   (0x1B80, 42), (0x1BAC, 4), (0x1BBA, 44), (0x1BE7, 11), (0x1C00, 55), (0x1C4D, 3), (0x1C5A, 36),
   (0x1C80, 11), (0x1C90, 43), (0x1CBD, 3), (0x1CE9, 4), (0x1CEE, 6), (0x1CF5, 2), (0x1CFA, 1),
   (0x1D00, 192), (0x1DD3, 34), (0x1E00, 278), (0x1F18, 6), (0x1F20, 38), (0x1F48, 6), (0x1F50, 8),
   (0x1F59, 1), (0x1F5B, 1), (0x1F5D, 1), (0x1F5F, 31), (0x1F80, 53), (0x1FB6, 7), (0x1FBE, 1),
   (0x1FC2, 3), (0x1FC6, 7), (0x1FD0, 4), (0x1FD6, 6), (0x1FE0, 13), (0x1FF2, 3), (0x1FF6, 7),
   (0x2071, 1), (0x207F, 1), (0x2090, 13), (0x2102, 1), (0x2107, 1), (0x210A, 10), (0x2115, 1),
   (0x2119, 5), (0x2124, 1), (0x2126, 1), (0x2128, 1), (0x212A, 4), (0x212F, 11), (0x213C, 4),
   (0x2145, 5), (0x214E, 1), (0x2160, 41), (0x24B6, 52), (0x2C00, 229), (0x2CEB, 4), (0x2CF2, 2),
   (0x2D00, 38), (0x2D27, 1), (0x2D2D, 1), (0x2D30, 56), (0x2D6F, 1), (0x2D80, 23), (0x2DA0, 7),
   (0x2DA8, 7), (0x2DB0, 7), (0x2DB8, 7), (0x2DC0, 7), (0x2DC8, 7), (0x2DD0, 7), (0x2DD8, 7),
   (0x2DE0, 32), (0x2E2F, 1), (0x3005, 3), (0x3021, 9), (0x3031, 5), (0x3038, 5), (0x3041, 86),
   (0x309D, 3), (0x30A1, 90), (0x30FC, 4), (0x3105, 43), (0x3131, 94), (0x31A0, 32), (0x31F0, 16),
   (0x3400, 6592), (0x4E00, 22157), (0xA4D0, 46), (0xA500, 269), (0xA610, 16), (0xA62A, 2),
   (0xA640, 47), (0xA674, 8), (0xA67F, 113), (0xA717, 9), (0xA722, 103), (0xA78B, 82), (0xA7F1, 21),
   (0xA807, 33), (0xA840, 52), (0xA880, 68), (0xA8C5, 1), (0xA8F2, 6), (0xA8FB, 1), (0xA8FD, 3),
   (0xA90A, 33), (0xA930, 35), (0xA960, 29), (0xA980, 51), (0xA9B4, 12), (0xA9CF, 1), (0xA9E0, 16),
   (0xA9FA, 5), (0xAA00, 55), (0xAA40, 14), (0xAA60, 23), (0xAA7A, 69), (0xAAC0, 1), (0xAAC2, 1),
   (0xAADB, 3), (0xAAE0, 16), (0xAAF2, 4), (0xAB01, 6), (0xAB09, 6), (0xAB11, 6), (0xAB20, 7),
   (0xAB28, 7), (0xAB30, 43), (0xAB5C, 14), (0xAB70, 123), (0xAC00, 11172), (0xD7B0, 23),
   (0xD7CB, 49), (0xF900, 366), (0xFA70, 106), (0xFB00, 7), (0xFB13, 5), (0xFB1D, 12), (0xFB2A, 13),
   (0xFB38, 5), (0xFB3E, 1), (0xFB40, 2), (0xFB43, 2), (0xFB46, 108), (0xFBD3, 363), (0xFD50, 64),
   (0xFD92, 54), (0xFDF0, 12), (0xFE70, 5), (0xFE76, 135), (0xFF21, 26), (0xFF41, 26), (0xFF66, 89),
   (0xFFC2, 6), (0xFFCA, 6), (0xFFD2, 6), (0xFFDA, 3)]

/-- The intervals of `Alphabetic` from U+10000 on. -/
def alphabeticHigh : Ranges :=
  [(0x10000, 12), (0x1000D, 26), (0x10028, 19), (0x1003C, 2), (0x1003F, 15), (0x10050, 14),
   (0x10080, 123), (0x10140, 53), (0x10280, 29), (0x102A0, 49), (0x10300, 32), (0x1032D, 30),
   (0x10350, 43), (0x10380, 30), (0x103A0, 36), (0x103C8, 8), (0x103D1, 5), (0x10400, 158),
   (0x104B0, 36), (0x104D8, 36), (0x10500, 40), (0x10530, 52), (0x10570, 11), (0x1057C, 15),
   (0x1058C, 7), (0x10594, 2), (0x10597, 11), (0x105A3, 15), (0x105B3, 7), (0x105BB, 2),
   (0x105C0, 52), (0x10600, 311), (0x10740, 22), (0x10760, 8), (0x10780, 6), (0x10787, 42),
   (0x107B2, 9), (0x10800, 6), (0x10808, 1), (0x1080A, 44), (0x10837, 2), (0x1083C, 1),
   (0x1083F, 23), (0x10860, 23), (0x10880, 31), (0x108E0, 19), (0x108F4, 2), (0x10900, 22),
   (0x10920, 26), (0x10940, 26), (0x10980, 56), (0x109BE, 2), (0x10A00, 4), (0x10A05, 2),
   (0x10A0C, 8), (0x10A15, 3), (0x10A19, 29), (0x10A60, 29), (0x10A80, 29), (0x10AC0, 8),
   (0x10AC9, 28), (0x10B00, 54), (0x10B40, 22), (0x10B60, 19), (0x10B80, 18), (0x10C00, 73),
   (0x10C80, 51), (0x10CC0, 51), (0x10D00, 40), (0x10D4A, 28), (0x10D69, 1), (0x10D6F, 23),
   (0x10E80, 42), (0x10EAB, 2), (0x10EB0, 2), (0x10EC2, 6), (0x10EFA, 3), (0x10F00, 29),
   (0x10F27, 1), (0x10F30, 22), (0x10F70, 18), (0x10FB0, 21), (0x10FE0, 23), (0x11000, 70),
   (0x11071, 5), (0x11080, 57), (0x110C2, 1), (0x110D0, 25), (0x11100, 51), (0x11144, 4),
   (0x11150, 35), (0x11176, 1), (0x11180, 64), (0x111C1, 4), (0x111CE, 2), (0x111DA, 1),
   (0x111DC, 1), (0x11200, 18), (0x11213, 34), (0x11237, 1), (0x1123E, 4), (0x11280, 7),
   (0x11288, 1), (0x1128A, 4), (0x1128F, 15), (0x1129F, 10), (0x112B0, 57), (0x11300, 4),
   (0x11305, 8), (0x1130F, 2), (0x11313, 22), (0x1132A, 7), (0x11332, 2), (0x11335, 5),
   (0x1133D, 8), (0x11347, 2), (0x1134B, 2), (0x11350, 1), (0x11357, 1), (0x1135D, 7),
   (0x11380, 10), (0x1138B, 1), (0x1138E, 1), (0x11390, 38), (0x113B7, 10), (0x113C2, 1),
   (0x113C5, 1), (0x113C7, 4), (0x113CC, 2), (0x113D1, 1), (0x113D3, 1), (0x11400, 66),
   (0x11443, 3), (0x11447, 4), (0x1145F, 3), (0x11480, 66), (0x114C4, 2), (0x114C7, 1),
   (0x11580, 54), (0x115B8, 7), (0x115D8, 6), (0x11600, 63), (0x11640, 1), (0x11644, 1),
   (0x11680, 54), (0x116B8, 1), (0x11700, 27), (0x1171D, 14), (0x11740, 7), (0x11800, 57),
   (0x118A0, 64), (0x118FF, 8), (0x11909, 1), (0x1190C, 8), (0x11915, 2), (0x11918, 30),
   (0x11937, 2), (0x1193B, 2), (0x1193F, 4), (0x119A0, 8), (0x119AA, 46), (0x119DA, 6),
   (0x119E1, 1), (0x119E3, 2), (0x11A00, 51), (0x11A35, 10), (0x11A50, 72), (0x11A9D, 1),
   (0x11AB0, 73), (0x11B60, 8), (0x11BC0, 33), (0x11C00, 9), (0x11C0A, 45), (0x11C38, 7),
   (0x11C40, 1), (0x11C72, 30), (0x11C92, 22), (0x11CA9, 14), (0x11D00, 7), (0x11D08, 2),
   (0x11D0B, 44), (0x11D3A, 1), (0x11D3C, 2), (0x11D3F, 3), (0x11D43, 1), (0x11D46, 2),
   (0x11D60, 6), (0x11D67, 2), (0x11D6A, 37), (0x11D90, 2), (0x11D93, 4), (0x11D98, 1),
   (0x11DB0, 44), (0x11EE0, 23), (0x11F00, 17), (0x11F12, 41), (0x11F3E, 3), (0x11FB0, 1),
   (0x12000, 922), (0x12400, 111), (0x12480, 196), (0x12F90, 97), (0x13000, 1072), (0x13441, 6),
   (0x13460, 3995), (0x14400, 583), (0x16100, 47), (0x16800, 569), (0x16A40, 31), (0x16A70, 79),
   (0x16AD0, 30), (0x16B00, 48), (0x16B40, 4), (0x16B63, 21), (0x16B7D, 19), (0x16D40, 45),
   (0x16E40, 64), (0x16EA0, 25), (0x16EBB, 25), (0x16F00, 75), (0x16F4F, 57), (0x16F8F, 17),
   (0x16FE0, 2), (0x16FE3, 1), (0x16FF0, 7), (0x17000, 7382), (0x18CFF, 32), (0x18D80, 115),
   (0x1AFF0, 4), (0x1AFF5, 7), (0x1AFFD, 2), (0x1B000, 291), (0x1B132, 1), (0x1B150, 3),
   (0x1B155, 1), (0x1B164, 4), (0x1B170, 396), (0x1BC00, 107), (0x1BC70, 13), (0x1BC80, 9),
   (0x1BC90, 10), (0x1BC9E, 1), (0x1D400, 85), (0x1D456, 71), (0x1D49E, 2), (0x1D4A2, 1),
   (0x1D4A5, 2), (0x1D4A9, 4), (0x1D4AE, 12), (0x1D4BB, 1), (0x1D4BD, 7), (0x1D4C5, 65),
   (0x1D507, 4), (0x1D50D, 8), (0x1D516, 7), (0x1D51E, 28), (0x1D53B, 4), (0x1D540, 5),
   (0x1D546, 1), (0x1D54A, 7), (0x1D552, 340), (0x1D6A8, 25), (0x1D6C2, 25), (0x1D6DC, 31),
   (0x1D6FC, 25), (0x1D716, 31), (0x1D736, 25), (0x1D750, 31), (0x1D770, 25), (0x1D78A, 31),
   (0x1D7AA, 25), (0x1D7C4, 8), (0x1DF00, 31), (0x1DF25, 6), (0x1E000, 7), (0x1E008, 17),
   (0x1E01B, 7), (0x1E023, 2), (0x1E026, 5), (0x1E030, 62), (0x1E08F, 1), (0x1E100, 45),
   (0x1E137, 7), (0x1E14E, 1), (0x1E290, 30), (0x1E2C0, 44), (0x1E4D0, 28), (0x1E5D0, 30),
   (0x1E5F0, 1), (0x1E6C0, 31), (0x1E6E0, 22), (0x1E6FE, 2), (0x1E7E0, 7), (0x1E7E8, 4),
   (0x1E7ED, 2), (0x1E7F0, 15), (0x1E800, 197), (0x1E900, 68), (0x1E947, 1), (0x1E94B, 1),
   (0x1EE00, 4), (0x1EE05, 27), (0x1EE21, 2), (0x1EE24, 1), (0x1EE27, 1), (0x1EE29, 10),
   (0x1EE34, 4), (0x1EE39, 1), (0x1EE3B, 1), (0x1EE42, 1), (0x1EE47, 1), (0x1EE49, 1), (0x1EE4B, 1),
   (0x1EE4D, 3), (0x1EE51, 2), (0x1EE54, 1), (0x1EE57, 1), (0x1EE59, 1), (0x1EE5B, 1), (0x1EE5D, 1),
   (0x1EE5F, 1), (0x1EE61, 2), (0x1EE64, 1), (0x1EE67, 4), (0x1EE6C, 7), (0x1EE74, 4), (0x1EE79, 4),
   (0x1EE7E, 1), (0x1EE80, 10), (0x1EE8B, 17), (0x1EEA1, 3), (0x1EEA5, 5), (0x1EEAB, 17),
   (0x1F130, 26), (0x1F150, 26), (0x1F170, 26), (0x20000, 42720), (0x2A700, 4382), (0x2B820, 5774),
   (0x2CEB0, 7473), (0x2EBF0, 622), (0x2F800, 542), (0x30000, 4939), (0x31350, 8490)]

/-- The intervals of the general categories `Nd`, `Nl` and `No`. -/
def numeralTable : Ranges :=
  [(0x30, 10), (0xB2, 2), (0xB9, 1), (0xBC, 3), (0x660, 10), (0x6F0, 10), (0x7C0, 10), (0x966, 10),
   (0x9E6, 10), (0x9F4, 6), (0xA66, 10), (0xAE6, 10), (0xB66, 10), (0xB72, 6), (0xBE6, 13),
   (0xC66, 10), (0xC78, 7), (0xCE6, 10), (0xD58, 7), (0xD66, 19), (0xDE6, 10), (0xE50, 10),
   (0xED0, 10), (0xF20, 20), (0x1040, 10), (0x1090, 10), (0x1369, 20), (0x16EE, 3), (0x17E0, 10),
   (0x17F0, 10), (0x1810, 10), (0x1946, 10), (0x19D0, 11), (0x1A80, 10), (0x1A90, 10), (0x1B50, 10),
   (0x1BB0, 10), (0x1C40, 10), (0x1C50, 10), (0x2070, 1), (0x2074, 6), (0x2080, 10), (0x2150, 51),
   (0x2185, 5), (0x2460, 60), (0x24EA, 22), (0x2776, 30), (0x2CFD, 1), (0x3007, 1), (0x3021, 9),
   (0x3038, 3), (0x3192, 4), (0x3220, 10), (0x3248, 8), (0x3251, 15), (0x3280, 10), (0x32B1, 15),
   (0xA620, 10), (0xA6E6, 10), (0xA830, 6), (0xA8D0, 10), (0xA900, 10), (0xA9D0, 10), (0xA9F0, 10),
   (0xAA50, 10), (0xABF0, 10), (0xFF10, 10), (0x10107, 45), (0x10140, 57), (0x1018A, 2),
   (0x102E1, 27), (0x10320, 4), (0x10341, 1), (0x1034A, 1), (0x103D1, 5), (0x104A0, 10),
   (0x10858, 8), (0x10879, 7), (0x108A7, 9), (0x108FB, 5), (0x10916, 6), (0x109BC, 2),
   (0x109C0, 16), (0x109D2, 46), (0x10A40, 9), (0x10A7D, 2), (0x10A9D, 3), (0x10AEB, 5),
   (0x10B58, 8), (0x10B78, 8), (0x10BA9, 7), (0x10CFA, 6), (0x10D30, 10), (0x10D40, 10),
   (0x10E60, 31), (0x10F1D, 10), (0x10F51, 4), (0x10FC5, 7), (0x11052, 30), (0x110F0, 10),
   (0x11136, 10), (0x111D0, 10), (0x111E1, 20), (0x112F0, 10), (0x11450, 10), (0x114D0, 10),
   (0x11650, 10), (0x116C0, 10), (0x116D0, 20), (0x11730, 12), (0x118E0, 19), (0x11950, 10),
   (0x11BF0, 10), (0x11C50, 29), (0x11D50, 10), (0x11DA0, 10), (0x11DE0, 10), (0x11F50, 10),
   (0x11FC0, 21), (0x12400, 111), (0x16130, 10), (0x16A60, 10), (0x16AC0, 10), (0x16B50, 10),
   (0x16B5B, 7), (0x16D70, 10), (0x16E80, 23), (0x16FF4, 3), (0x1CCF0, 10), (0x1D2C0, 20),
   (0x1D2E0, 20), (0x1D360, 25), (0x1D7CE, 50), (0x1E140, 10), (0x1E2F0, 10), (0x1E4F0, 10),
   (0x1E5F1, 10), (0x1E8C7, 9), (0x1E950, 10), (0x1EC71, 59), (0x1ECAD, 3), (0x1ECB1, 4),
   (0x1ED01, 45), (0x1ED2F, 15), (0x1F100, 13), (0x1FBF0, 10)]

/-- The Unicode property `Alphabetic`. -/
def isLetter (c : Char) : Bool :=
  if c.toNat < 128 then c.isAlpha
  else alphabeticLow.contains c || alphabeticMiddle.contains c || alphabeticHigh.contains c

/-- A character of one of the three number categories. -/
def isNumeral (c : Char) : Bool :=
  if c.toNat < 128 then c.isDigit else numeralTable.contains c

/-- A letter or a numeral. -/
def isLetterOrNumeral (c : Char) : Bool := isLetter c || isNumeral c

end RowQuery.Text
